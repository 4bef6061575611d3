import Th8.Eval.WordBuilder

/-!
# The two word builders compared

On a text without an open bracket both builders are one loop over the words of
the text; they differ in what a single word contributes.  The resumable builder
gives every argument the tags of all that went into it.  The synchronous builder
publishes the word through the interpreter result, and an empty word loses its
tags there.  So the builders part ways exactly at a word made of references to
empty variables, one of which is tagged.
-/

namespace Th8

open Support List

variable {σ : Type} {env : Env σ}

def wordValue (env : Env σ) (s : σ) (zWord : Bytes) : Except Failure (TString × σ) := do
  let (output, s') ← substOutput env (substWord env zWord.length) s zWord
  if output.bFail then .error (.static "out of memory")
  else return (⟨output.zBuf, output.nTag⟩, s')

def dropEmptyTags (x : TString) : TString :=
  match x.bytes with
  | [] => .plain []
  | _ => x

theorem setResult_eq_dropEmptyTags (output : Buffer Byte) :
    setResult output = dropEmptyTags ⟨output.zBuf, output.nTag⟩ := by
  unfold setResult dropEmptyTags
  cases output.zBuf with
  | nil => rfl
  | cons c rest => rfl

theorem substWord_eq_wordValue (s : σ) (zWord : Bytes) :
    substWord env (zWord.length + 1) s zWord =
      (wordValue env s zWord).map fun r => (dropEmptyTags r.1, r.2) := by
  unfold substWord wordValue
  cases hout : substOutput env (substWord env zWord.length) s zWord with
  | error e => rfl
  | ok r =>
    obtain ⟨output, s'⟩ := r
    simp only [ok_bind]
    split_ifs
    · rfl
    · simp [setResult_eq_dropEmptyTags]

theorem nrBraced_eq_substBraced (inCont : Bool) (z : Bytes) (b : Buffer Byte) :
    nrBraced inCont z b = substBraced inCont z b := by
  fun_induction nrBraced inCont z b with
  | case1 => simp [substBraced]
  | case2 inCont c rest b hblank ih =>
    conv_rhs => rw [substBraced.eq_def]
    simpa [hblank] using ih
  | case3 inCont c b hblank hback => simp [substBraced, hblank, hback]
  | case4 inCont c b hblank hback d rest hnl ih =>
    conv_rhs => rw [substBraced.eq_def]
    simpa [hblank, hback, hnl] using ih
  | case5 inCont c b hblank hback d rest hnl ih =>
    conv_rhs => rw [substBraced.eq_def]
    simpa [hblank, hback, hnl] using ih
  | case6 inCont c rest b hblank hback ih =>
    conv_rhs => rw [substBraced.eq_def]
    simpa [hblank, hback] using ih

theorem nrSubstChars_eq_substChars {n m k : ℕ} {z : Bytes} (s : σ)
    (b : Buffer Byte) (hbracket : chOpenBracket ∉ z) (hn : z.length ≤ n)
    (hm : z.length ≤ m) (hk : z.length ≤ k) :
    nrSubstChars env n s z b =
      (substChars env (substWord env k) m s z b).map fun r => NRChars.wordDone r.1 r.2 := by
  induction n generalizing m z s b with
  | zero =>
    have hnil : z = [] := eq_nil_of_length_eq_zero (by omega)
    subst hnil
    simp [nrSubstChars, substChars]
  | succ n ih =>
    cases z with
    | nil => simp [nrSubstChars, substChars]
    | cons c rest =>
      cases m with
      | zero => simp at hm
      | succ m =>
        simp only [length_cons] at hn hm hk
        have step : ∀ (j : ℕ) (t : σ) (b : Buffer Byte), 0 < j →
            nrSubstChars env n t ((c :: rest).drop j) b =
              (substChars env (substWord env k) m t
                ((c :: rest).drop j) b).map fun r => NRChars.wordDone r.1 r.2 := by
          intro j t b hj
          have hlen : ((c :: rest).drop j).length ≤ rest.length := by
            simp only [length_drop, length_cons]
            omega
          refine ih t b ?_ (by omega) (by omega) (by omega)
          exact fun hmem => hbracket (mem_of_mem_drop hmem)
        have hvar : ∀ (j : ℕ) (t : σ),
            substVarName env (substWord env j) t ((c :: rest).take j) =
              substVarName env (substWord env k) t ((c :: rest).take j) := by
          intro j t
          refine substVarName_congr t fun u idx hidx => ?_
          simp only [length_take, length_cons] at hidx
          exact substWord_fuel u (by omega) (by omega)
        have hopen : (c == chOpenBracket) = false := by
          simp only [beq_eq_false_iff_ne]
          rintro rfl
          exact hbracket mem_cons_self
        unfold nrSubstChars substChars
        simp only [hopen, Bool.false_eq_true, if_false]
        split_ifs
        · cases hesc : nextEscape (c :: rest) with
          | error e => rfl
          | ok j => simpa using step j s _ (nextEscape_pos hesc)
        · cases hname : nextVarName (c :: rest) with
          | error e => rfl
          | ok j =>
            simp only [ok_bind]
            split_ifs
            · simpa using step 1 s (bufAddChar b chDollar) Nat.one_pos
            · rw [hvar]
              cases substVarName env (substWord env k) s ((c :: rest).take j) with
              | error e => rfl
              | ok r =>
                simp only [ok_bind]
                exact step j r.2 _ (nextVarName_pos hname)
        · simpa using step 1 s (bufAddChar b c) Nat.one_pos

/-! ## What the argument buffers hold -/

/-- The tags collected by `strbuf` are never read. -/
def ArgBuffers.untagged (b : ArgBuffers) : ArgBuffers :=
  { b with strbuf := { b.strbuf with nTag := Tags.clean } }

theorem bufWrite_untagged {α : Type} (size : ℕ) (b : Buffer α) (z : List α) (t : Tags) :
    { bufWrite size b z t with nTag := Tags.clean } =
      bufWrite size { b with nTag := Tags.clean } z Tags.clean := by
  unfold bufWrite
  simp only [Tags.or_clean]
  split_ifs <;> rfl

theorem ArgBuffers.add_untagged (b : ArgBuffers) (x : TString) (t : Tags) :
    (b.add x t).untagged = b.untagged.add x Tags.clean := by
  simp only [ArgBuffers.add, ArgBuffers.untagged, bufAddChar, bufWrite_untagged]

/-- The buffers after the arguments `xs` have been added. -/
def ArgBuffers.layout (b : ArgBuffers) (xs : List TString) : ArgBuffers :=
  xs.foldl (fun b x => b.add x Tags.clean) b

theorem ArgBuffers.foldl_add_untagged (t : TString → Tags) (xs : List TString) (b : ArgBuffers) :
    (xs.foldl (fun b x => b.add x (t x)) b).untagged = b.untagged.layout xs := by
  induction xs generalizing b with
  | nil => rfl
  | cons x xs ih =>
    rw [foldl_cons, ih, ArgBuffers.add_untagged]
    rfl

theorem ArgBuffers.layout_append (b : ArgBuffers) (xs ys : List TString) :
    b.layout (xs ++ ys) = (b.layout xs).layout ys := by
  simp [ArgBuffers.layout, foldl_append]

theorem ArgBuffers.argv_untagged (b : ArgBuffers) : b.untagged.argv = b.argv := rfl

def ArgBuffers.Healthy (b : ArgBuffers) : Prop :=
  b.strbuf.bFail = false ∧ b.lenbuf.bFail = false

theorem ArgBuffers.healthy_of_add {b : ArgBuffers} {x : TString} {t : Tags}
    (h : (b.add x t).Healthy) : b.Healthy :=
  ⟨bufWrite_bFail_mono (bufWrite_bFail_mono h.1), bufWrite_bFail_mono h.2⟩

theorem ArgBuffers.healthy_of_layout {b : ArgBuffers} {xs : List TString}
    (h : (b.layout xs).Healthy) : b.Healthy := by
  induction xs generalizing b with
  | nil => exact h
  | cons x xs ih => exact ArgBuffers.healthy_of_add (ih h)

def argBytes (xs : List TString) : Bytes := xs.flatMap fun x => x.bytes ++ [0]

theorem ArgBuffers.layout_contents {b : ArgBuffers} {xs : List TString}
    (h : (b.layout xs).Healthy) :
    (b.layout xs).strbuf.zBuf = b.strbuf.zBuf ++ argBytes xs ∧
      (b.layout xs).lenbuf.zBuf = b.lenbuf.zBuf ++ xs.map TString.lenWord ∧
      (b.layout xs).nCount = b.nCount + xs.length := by
  induction xs generalizing b with
  | nil => simp [ArgBuffers.layout, argBytes]
  | cons x xs ih =>
    have hadd : (b.add x Tags.clean).Healthy := ArgBuffers.healthy_of_layout h
    obtain ⟨hstr, hlen, hcount⟩ := ih h
    have hzero := bufWrite_zBuf Nat.one_pos hadd.1
    have hbytes := bufWrite_zBuf Nat.one_pos (bufWrite_bFail_mono hadd.1)
    have hword := bufWrite_zBuf (by decide : 0 < sizeOfSize) hadd.2
    refine ⟨?_, ?_, ?_⟩
    · calc
        (b.layout (x :: xs)).strbuf.zBuf = (b.add x Tags.clean).strbuf.zBuf ++ argBytes xs := hstr
        _ = b.strbuf.zBuf ++ x.bytes ++ [0] ++ argBytes xs := by
            rw [← hbytes, ← hzero]
            rfl
        _ = b.strbuf.zBuf ++ argBytes (x :: xs) := by
            simp [argBytes]
    · calc
        (b.layout (x :: xs)).lenbuf.zBuf
            = (b.add x Tags.clean).lenbuf.zBuf ++ xs.map TString.lenWord := hlen
        _ = b.lenbuf.zBuf ++ [x.lenWord] ++ xs.map TString.lenWord := by
            rw [← hword]
            rfl
        _ = b.lenbuf.zBuf ++ (x :: xs).map TString.lenWord := by simp
    · calc
        (b.layout (x :: xs)).nCount = (b.add x Tags.clean).nCount + xs.length := hcount
        _ = b.nCount + (x :: xs).length := by
            simp only [ArgBuffers.add, length_cons]
            omega

theorem argvFrom_argBytes (xs : List TString) :
    argvFrom (xs.map TString.lenWord) (argBytes xs) = xs := by
  induction xs with
  | nil => rfl
  | cons x xs ih =>
    have htake : (argBytes (x :: xs)).take x.bytes.length = x.bytes := by
      simp [argBytes]
    have hdrop : (argBytes (x :: xs)).drop (x.bytes.length + 1) = argBytes xs :=
      drop_left' (by simp)
    simp only [map_cons, argvFrom, TString.lenWord, htake, hdrop]
    exact congrArg _ ih

def Fits (xs : List TString) : Prop := (ArgBuffers.init.layout xs).Healthy

instance (xs : List TString) : Decidable (Fits xs) :=
  inferInstanceAs (Decidable (_ ∧ _))

theorem argv_layout (xs : List TString) :
    (ArgBuffers.init.layout xs).argv =
      if Fits xs then .ok xs else .error (.static "out of memory") := by
  unfold ArgBuffers.argv
  by_cases hfits : Fits xs
  · obtain ⟨hstr, hlen, hcount⟩ := ArgBuffers.layout_contents hfits
    have hcondition : ((ArgBuffers.init.layout xs).strbuf.bFail ||
        (ArgBuffers.init.layout xs).lenbuf.bFail) = false := by
      rw [hfits.1, hfits.2]
      rfl
    rw [hcondition, if_pos hfits, hstr, hlen, hcount]
    have htake : (xs.map TString.lenWord).take (0 + xs.length) =
        xs.map TString.lenWord := take_of_length_le (by simp)
    simp only [ArgBuffers.init, bufInit_zBuf, nil_append, htake,
      argvFrom_argBytes, Bool.false_eq_true, if_false]
  · have hcondition : ((ArgBuffers.init.layout xs).strbuf.bFail ||
        (ArgBuffers.init.layout xs).lenbuf.bFail) = true := by
      by_contra hne
      rw [Bool.not_eq_true, Bool.or_eq_false_iff] at hne
      exact hfits hne
    rw [hcondition, if_neg hfits]
    rfl

def lensOnly (b : Buffer LenWord) : Buffer ℕ :=
  ⟨b.zBuf.map LenWord.len, b.nAlloc, b.nTag, b.bFail⟩

theorem bufWrite_lensOnly (size : ℕ) (b : Buffer LenWord) (z : List LenWord) (t : Tags) :
    lensOnly (bufWrite size b z t) = bufWrite size (lensOnly b) (z.map LenWord.len) t := by
  unfold bufWrite lensOnly
  simp only [length_map]
  split_ifs <;> simp

theorem fits_congr {xs ys : List TString}
    (h : xs.map TString.bytes = ys.map TString.bytes) : Fits xs ↔ Fits ys := by
  have key : ∀ (xs ys : List TString) (b c : ArgBuffers),
      xs.map TString.bytes = ys.map TString.bytes → b.strbuf = c.strbuf →
      lensOnly b.lenbuf = lensOnly c.lenbuf →
      (b.layout xs).strbuf = (c.layout ys).strbuf ∧
        lensOnly (b.layout xs).lenbuf = lensOnly (c.layout ys).lenbuf := by
    intro xs
    induction xs with
    | nil =>
      intro ys b c hbytes hstr hlen
      have hys : ys = [] := by simpa using hbytes.symm
      subst hys
      exact ⟨hstr, hlen⟩
    | cons x xs ih =>
      intro ys b c hbytes hstr hlen
      cases ys with
      | nil => simp at hbytes
      | cons y ys =>
        simp only [map_cons, List.cons.injEq] at hbytes
        refine ih ys _ _ hbytes.2 ?_ ?_
        · simp only [ArgBuffers.add, hstr, hbytes.1]
        · simp only [ArgBuffers.add, bufWrite_lensOnly, hlen,
            TString.lenWord, hbytes.1, map_cons, map_nil]
  obtain ⟨hstr, hlen⟩ := key xs ys ArgBuffers.init ArgBuffers.init h rfl rfl
  have hfail : (ArgBuffers.init.layout xs).lenbuf.bFail =
      (ArgBuffers.init.layout ys).lenbuf.bFail :=
    congrArg (fun b : Buffer ℕ => b.bFail) hlen
  unfold Fits ArgBuffers.Healthy
  rw [hstr, hfail]

/-! ## The loop over the words -/

/-- The word loop common to both builders, with the contribution of one word as a
parameter. -/
def wordLoop (env : Env σ) (word : σ → Bytes → Except Failure (List TString × σ)) :
    ℕ → σ → Bytes → Except Failure (List TString × σ)
  | _, s, [] => .ok ([], s)
  | 0, _, _ :: _ => .error .silent
  | fuel + 1, s, c :: rest => do
    let s₁ ← env.ready s
    let zInput := (c :: rest).drop (nextSpace (c :: rest))
    if zInput.length = 0 then return ([], s₁)
    let nWord ← nextWord zInput false
    if nWord = 0 then return ([], s₁)
    let (xs, s₂) ← word s₁ (zInput.take nWord)
    let (ys, s₃) ← wordLoop env word fuel s₂ (zInput.drop nWord)
    return (xs ++ ys, s₃)

/-- What one word contributes in `th8SplitCommand`. -/
def syncWord (env : Env σ) (s : σ) (zWord : Bytes) : Except Failure (List TString × σ) := do
  match ← checkExpansionPrefix env s zWord with
  | some (nTag, xExpand) =>
    let zRest := zWord.drop (nTag + 2)
    let (res, s') ← substWord env (zRest.length + 1) s zRest
    let expanded ← xExpand res
    return (expanded, s')
  | none =>
    let (res, s') ← substWord env (zWord.length + 1) s zWord
    return ([res], s')

/-- The arguments a word stands for: its value, or the elements the value expands
to, each with the tags of everything that went into the word. -/
def wordArgs (env : Env σ) (s : σ) (zWord : Bytes) : Except Failure (List TString × σ) := do
  match ← checkExpansionPrefix env s zWord with
  | some (nTag, xExpand) =>
    let (v, s') ← wordValue env s (zWord.drop (nTag + 2))
    let expanded ← xExpand (.plain v.bytes)
    return (expanded.map fun x => x.addTags v.tags, s')
  | none =>
    let (v, s') ← wordValue env s zWord
    return ([v], s')

def commandArgs (env : Env σ) (s : σ) (zCmd : Bytes) : Except Failure (List TString × σ) := do
  let (xs, s') ← wordLoop env (wordArgs env) zCmd.length s zCmd
  if Fits xs then return (xs, s') else .error (.static "out of memory")

theorem splitWord_eq_syncWord (s : σ) (b : ArgBuffers) (zWord : Bytes) :
    (splitWord env s b zWord).map (fun r => (r.1.untagged, r.2)) =
      (syncWord env s zWord).map (fun r => (b.untagged.layout r.1, r.2)) := by
  unfold splitWord syncWord
  cases checkExpansionPrefix env s zWord with
  | error e => rfl
  | ok expansion =>
    cases expansion with
    | none =>
      simp only [ok_bind]
      cases substWord env (zWord.length + 1) s zWord with
      | error e => rfl
      | ok r => simp [ArgBuffers.add_untagged, ArgBuffers.layout]
    | some x =>
      simp only [ok_bind]
      cases substWord env _ s (zWord.drop (x.1 + 2)) with
      | error e => rfl
      | ok r =>
        simp only [ok_bind]
        cases x.2 r.1 with
        | error e => rfl
        | ok expanded => simp [ArgBuffers.foldl_add_untagged]

theorem splitWords_eq_wordLoop (n : ℕ) (s : σ) (z : Bytes) (b : ArgBuffers) :
    (splitWords env n s z b).map (fun r => (r.1.untagged, r.2)) =
      (wordLoop env (syncWord env) n s z).map (fun r => (b.untagged.layout r.1, r.2)) := by
  induction n generalizing s z b with
  | zero =>
    cases z with
    | nil => simp [splitWords, wordLoop, ArgBuffers.layout]
    | cons c rest => simp [splitWords, wordLoop]
  | succ n ih =>
    cases z with
    | nil => simp [splitWords, wordLoop, ArgBuffers.layout]
    | cons c rest =>
      unfold splitWords wordLoop
      cases env.ready s with
      | error e => rfl
      | ok s₁ =>
        simp only [ok_bind]
        generalize (c :: rest).drop (nextSpace (c :: rest)) = zInput
        split_ifs with hempty
        · simp [ArgBuffers.layout]
        · cases nextWord zInput false with
          | error e => rfl
          | ok nWord =>
            simp only [ok_bind]
            split_ifs with hzero
            · simp [ArgBuffers.layout]
            · have hword := @splitWord_eq_syncWord _ env s₁ b (zInput.take nWord)
              cases hsplit : splitWord env s₁ b (zInput.take nWord) <;>
                cases hsync : syncWord env s₁ (zInput.take nWord) <;>
                  simp only [hsplit, hsync, map_ok, map_error, reduceCtorEq,
                    Except.ok.injEq, Except.error.injEq, Prod.mk.injEq] at hword
              · rw [hword]
                rfl
              · rename_i r t
                simp only [ok_bind]
                rw [ih, hword.1, hword.2]
                cases wordLoop env (syncWord env) n t.2 (zInput.drop nWord) with
                | error e => rfl
                | ok u => simp [ArgBuffers.layout_append]

theorem splitCommand_eq_wordLoop (s : σ) (zCmd : Bytes) :
    splitCommand env s zCmd =
      (do
        let (xs, s') ← wordLoop env (syncWord env) zCmd.length s zCmd
        if Fits xs then return (xs, s') else .error (.static "out of memory")) := by
  unfold splitCommand
  have hloop := @splitWords_eq_wordLoop _ env zCmd.length s zCmd ArgBuffers.init
  cases hsplit : splitWords env zCmd.length s zCmd ArgBuffers.init <;>
    cases hwords : wordLoop env (syncWord env) zCmd.length s zCmd <;>
      simp only [hsplit, hwords, map_ok, map_error, reduceCtorEq,
        Except.ok.injEq, Except.error.injEq, Prod.mk.injEq] at hloop
  · rw [hloop]
    rfl
  · rename_i r t
    simp only [ok_bind]
    have hargv : r.1.argv = (ArgBuffers.init.layout t.1).argv := by
      rw [← ArgBuffers.argv_untagged, hloop.1]
      rfl
    rw [hargv, argv_layout, hloop.2]
    split_ifs <;> rfl

theorem wordRest_not_mem {zWord : Bytes} (expansion : Expansion)
    (h : chOpenBracket ∉ zWord) : chOpenBracket ∉ wordRest zWord expansion := by
  unfold wordRest
  split
  · exact fun hmem => h (mem_of_mem_drop hmem)
  · exact h

theorem nrSubstChars_nrBeginWord (s : σ) (p : CmdBuild) (zInput : Bytes)
    (nWord : ℕ) (expansion : Expansion) (hbracket : chOpenBracket ∉ zInput) :
    let q := nrBeginWord p zInput nWord expansion
    let w := wordRest (zInput.take nWord) expansion
    nrSubstChars env q.zWord.length s q.zWord q.wordBuf =
      (substOutput env (substWord env w.length) s w).map fun r => NRChars.wordDone r.1 r.2 := by
  intro q w
  have hw : chOpenBracket ∉ w :=
    wordRest_not_mem expansion fun hmem => hbracket (mem_of_mem_take hmem)
  have hq : q = nrBeginWord p zInput nWord expansion := rfl
  unfold nrBeginWord at hq
  unfold substOutput
  by_cases hbraced : isBraced w
  · simp only [w] at hbraced
    rw [if_pos hbraced, hq, if_pos hbraced]
    simp [nrSubstChars, nrBraced_eq_substBraced, w]
  by_cases hquoted : isQuoted w
  · simp only [w] at hbraced hquoted
    rw [if_neg hbraced, if_pos hquoted, hq, if_neg hbraced, if_pos hquoted]
    exact nrSubstChars_eq_substChars s bufInit (inner_not_mem hw) (Nat.le_refl _)
      (inner_length_le w) (inner_length_le w)
  · simp only [w] at hbraced hquoted
    rw [if_neg hbraced, if_neg hquoted, hq, if_neg hbraced, if_neg hquoted]
    exact nrSubstChars_eq_substChars s bufInit hw (Nat.le_refl _) (Nat.le_refl _) (Nat.le_refl _)

theorem nrBeginWord_nrWordDone {s : σ} (p : CmdBuild) (zInput : Bytes)
    (nWord : ℕ) {expansion : Expansion}
    (hcheck : checkExpansionPrefix env s (zInput.take nWord) = .ok expansion) :
    let q := nrBeginWord p zInput nWord expansion
    let w := wordRest (zInput.take nWord) expansion
    (do
      let (wordBuf, s') ← substOutput env (substWord env w.length) s w
      let q' ← nrWordDone { q with zWord := [], wordBuf := wordBuf }
      return (q'.args.untagged, q'.zInput, q'.bWordActive, s')) =
    (wordArgs env s (zInput.take nWord)).map fun r =>
      (p.args.untagged.layout r.1, zInput.drop nWord, false, r.2) := by
  intro q w
  have hargs : q.args = p.args := by
    simp only [q, nrBeginWord]
    split_ifs <;> rfl
  have hinput : q.zInput = zInput := by
    simp only [q, nrBeginWord]
    split_ifs <;> rfl
  have horig : q.nOrigWord = nWord := by
    simp only [q, nrBeginWord]
    split_ifs <;> rfl
  have hexpand : q.xExpand = expansion.map Prod.snd := by
    simp only [q, nrBeginWord]
    split_ifs <;> rfl
  unfold wordArgs wordValue
  rw [hcheck]
  simp only [ok_bind]
  cases expansion with
  | none =>
    simp only [w, wordRest, Option.map_none] at hexpand ⊢
    cases substOutput env _ s (zInput.take nWord) with
    | error e => rfl
    | ok r =>
      simp only [ok_bind, nrWordDone, hexpand, hargs, hinput, horig]
      split_ifs
      · rfl
      · simp [cmdBuildAddWord, ArgBuffers.add_untagged, ArgBuffers.layout]
  | some x =>
    simp only [w, wordRest, Option.map_some] at hexpand ⊢
    cases substOutput env _ s ((zInput.take nWord).drop (x.1 + 2)) with
    | error e => rfl
    | ok r =>
      simp only [ok_bind, nrWordDone, hexpand, hargs, hinput, horig]
      split_ifs
      · rfl
      · simp only [pure_eq_ok, ok_bind]
        cases x.2 (TString.plain r.1.zBuf) with
        | error e => rfl
        | ok expanded =>
          have hfold := ArgBuffers.foldl_add_untagged TString.tags
            (expanded.map fun x => x.addTags r.1.nTag) p.args
          rw [foldl_map] at hfold
          simp only [ok_bind, map_ok, cmdBuildAddWord, hfold]

/-- What the caller of `th8NRSubstAndBuild` sees when all words are built. -/
def NRResult.outcome : NRResult σ → Option (ArgBuffers × σ)
  | .built p s => some (p.args.untagged, s)
  | .pushed _ _ _ => none

theorem nrSubstAndBuild_active {fuel : ℕ} {s : σ} {q : CmdBuild}
    {r : Except Failure (Buffer Byte × σ)} (hactive : q.bWordActive = true)
    (hchars : nrSubstChars env q.zWord.length s q.zWord q.wordBuf =
      r.map fun r => NRChars.wordDone r.1 r.2) :
    nrSubstAndBuild env (fuel + 1) s q = (do
      let (wordBuf, s') ← r
      let q' ← nrWordDone { q with zWord := [], wordBuf := wordBuf }
      nrSubstAndBuild env fuel s' q') := by
  conv_lhs => unfold nrSubstAndBuild
  rw [if_pos hactive, hchars]
  cases r with
  | error e => rfl
  | ok r => rfl

theorem nrBeginWord_bWordActive (p : CmdBuild) (zInput : Bytes) (nWord : ℕ)
    (expansion : Expansion) :
    (nrBeginWord p zInput nWord expansion).bWordActive = true := by
  unfold nrBeginWord
  simp only
  split_ifs <;> rfl

theorem nrSubstAndBuild_word (fuel : ℕ) {s : σ} (p : CmdBuild) {zInput : Bytes}
    (nWord : ℕ) {expansion : Expansion} (hbracket : chOpenBracket ∉ zInput)
    (hcheck : checkExpansionPrefix env s (zInput.take nWord) = .ok expansion) :
    match wordArgs env s (zInput.take nWord) with
    | .error e =>
      nrSubstAndBuild env (fuel + 1) s (nrBeginWord p zInput nWord expansion) = .error e
    | .ok (xs, s') => ∃ q : CmdBuild,
        nrSubstAndBuild env (fuel + 1) s (nrBeginWord p zInput nWord expansion) =
          nrSubstAndBuild env fuel s' q ∧
        q.args.untagged = p.args.untagged.layout xs ∧
        q.zInput = zInput.drop nWord ∧ q.bWordActive = false := by
  have hdone := nrBeginWord_nrWordDone p zInput nWord hcheck
  rw [nrSubstAndBuild_active (nrBeginWord_bWordActive p zInput nWord expansion)
    (nrSubstChars_nrBeginWord s p zInput nWord expansion hbracket)]
  cases hout : substOutput env (substWord env (wordRest (zInput.take nWord) expansion).length) s
      (wordRest (zInput.take nWord) expansion) with
  | error e =>
    simp only [hout, error_bind] at hdone
    cases hargs : wordArgs env s (zInput.take nWord) with
    | error d =>
      rw [hargs, map_error] at hdone
      simpa using hdone
    | ok r => simp [hargs] at hdone
  | ok r =>
    simp only [hout, ok_bind] at hdone ⊢
    cases hq : nrWordDone { nrBeginWord p zInput nWord expansion with
        zWord := [], wordBuf := r.1 } with
    | error e =>
      simp only [hq, error_bind] at hdone
      cases hargs : wordArgs env s (zInput.take nWord) with
      | error d =>
        rw [hargs, map_error] at hdone
        simpa using hdone
      | ok r => simp [hargs] at hdone
    | ok q =>
      simp only [hq, ok_bind] at hdone ⊢
      cases hargs : wordArgs env s (zInput.take nWord) with
      | error d => simp [hargs] at hdone
      | ok t =>
        simp only [hargs, map_ok, pure_eq_ok, Except.ok.injEq, Prod.mk.injEq] at hdone
        obtain ⟨hlayout, hinput, hactive, hstate⟩ := hdone
        exact ⟨q, by rw [hstate], hlayout, hinput, hactive⟩

/-- Without brackets the resumable builder runs to its end in one call, as the
common loop over `wordArgs`. -/
theorem nrSubstAndBuild_eq_wordLoop (n : ℕ) (s : σ) (p : CmdBuild) (fuel : ℕ)
    (hactive : p.bWordActive = false) (hbracket : chOpenBracket ∉ p.zInput)
    (hlen : p.zInput.length ≤ n) (hfuel : 2 * n + 1 ≤ fuel) :
    (nrSubstAndBuild env fuel s p).map NRResult.outcome =
      (wordLoop env (wordArgs env) n s p.zInput).map
        fun r => some (p.args.untagged.layout r.1, r.2) := by
  induction n generalizing s p fuel with
  | zero =>
    have hnil : p.zInput = [] := eq_nil_of_length_eq_zero (by omega)
    obtain ⟨fuel, rfl⟩ : ∃ k, fuel = k + 1 := ⟨fuel - 1, by omega⟩
    simp [nrSubstAndBuild, hactive, hnil, wordLoop, NRResult.outcome, ArgBuffers.layout]
  | succ n ih =>
    obtain ⟨fuel, rfl⟩ : ∃ k, fuel = k + 2 := ⟨fuel - 2, by omega⟩
    unfold nrSubstAndBuild
    rw [hactive]
    cases hz : p.zInput with
    | nil => simp [wordLoop, NRResult.outcome, ArgBuffers.layout]
    | cons c rest =>
      unfold nrStartWord wordLoop
      rw [hz] at hbracket hlen
      simp only [hz, Bool.false_eq_true, if_false, length_cons, Nat.succ_ne_zero]
      cases env.ready s with
      | error e => rfl
      | ok s₁ =>
        simp only [ok_bind]
        have hdrop : chOpenBracket ∉ (c :: rest).drop (nextSpace (c :: rest)) :=
          fun hmem => hbracket (mem_of_mem_drop hmem)
        have hshort : ((c :: rest).drop (nextSpace (c :: rest))).length ≤ n + 1 := by
          simp only [length_drop, length_cons] at hlen ⊢
          omega
        generalize (c :: rest).drop (nextSpace (c :: rest)) = zInput at *
        split_ifs with hempty
        · simp [NRResult.outcome, ArgBuffers.layout]
        · cases nextWord zInput false with
          | error e => rfl
          | ok nWord =>
            simp only [ok_bind]
            split_ifs with hzero
            · simp [NRResult.outcome, ArgBuffers.layout]
            · cases hcheck : checkExpansionPrefix env s₁ (zInput.take nWord) with
              | error e => simp [wordArgs, hcheck]
              | ok expansion =>
                simp only [ok_bind, pure_eq_ok]
                have hword := nrSubstAndBuild_word fuel p nWord hdrop hcheck
                cases hargs : wordArgs env s₁ (zInput.take nWord) with
                | error e =>
                  rw [hargs] at hword
                  rw [hword]
                  rfl
                | ok r =>
                  rw [hargs] at hword
                  obtain ⟨q, hq, hlayout, hinput, hidle⟩ := hword
                  have hnext := ih r.2 q fuel hidle (by
                      rw [hinput]
                      exact fun h => hdrop (mem_of_mem_drop h))
                    (by
                      rw [hinput, length_drop]
                      omega)
                    (by omega)
                  rw [hq, hnext, hinput, hlayout]
                  simp only [ok_bind]
                  cases wordLoop env (wordArgs env) n r.2 (zInput.drop nWord) with
                  | error e => rfl
                  | ok t => simp [ArgBuffers.layout_append]

theorem nrCommand_eq_commandArgs (s : σ) {zCmd : Bytes} (hbracket : chOpenBracket ∉ zCmd) :
    nrCommand env s zCmd = commandArgs env s zCmd := by
  unfold nrCommand nrCommandFrom commandArgs
  have hloop := @nrSubstAndBuild_eq_wordLoop _ env zCmd.length s
    (CmdBuild.init zCmd) (CmdBuild.init zCmd).rounds rfl hbracket (Nat.le_refl _)
    (by simp [CmdBuild.rounds, CmdBuild.init])
  have hinit : (CmdBuild.init zCmd).zInput = zCmd := rfl
  rw [hinit] at hloop
  cases hbuild : nrSubstAndBuild env (CmdBuild.init zCmd).rounds s (CmdBuild.init zCmd) with
  | error e =>
    rw [hbuild, map_error] at hloop
    cases hwords : wordLoop env (wordArgs env) zCmd.length s zCmd with
    | error d =>
      rw [hwords, map_error] at hloop
      simpa using hloop
    | ok t => simp [hwords] at hloop
  | ok r =>
    cases hwords : wordLoop env (wordArgs env) zCmd.length s zCmd with
    | error d => simp [hwords, hbuild] at hloop
    | ok t =>
      cases r with
      | pushed script q s' => simp [hwords, hbuild, NRResult.outcome] at hloop
      | built q s' =>
        simp only [hwords, hbuild, map_ok, NRResult.outcome, Except.ok.injEq,
          Option.some.injEq, Prod.mk.injEq] at hloop
        have hargv : q.args.argv = (ArgBuffers.init.layout t.1).argv := by
          rw [← ArgBuffers.argv_untagged, hloop.1]
          rfl
        simp only [ok_bind, hargv, argv_layout, hloop.2]
        split_ifs <;> rfl

/-! ## Words that substitute to nothing -/

theorem utf8Encode_ne_nil (v : BitVec 32) : utf8Encode v ≠ [] := by
  unfold utf8Encode
  simp only
  split_ifs <;> simp

theorem ite_ne_nil {p : Prop} [Decidable p] {a b : Bytes} (ha : a ≠ [])
    (hb : b ≠ []) : (if p then a else b) ≠ [] := by
  by_cases hp : p
  · rwa [if_pos hp]
  · rwa [if_neg hp]

theorem escapeBytes_ne_nil (zEsc : Bytes) : escapeBytes zEsc ≠ [] := by
  match zEsc with
  | [] => exact cons_ne_nil _ _
  | [_] => exact cons_ne_nil _ _
  | _ :: _ :: _ =>
    iterate 10 refine ite_ne_nil (cons_ne_nil _ _) ?_
    refine ite_ne_nil (utf8Encode_ne_nil _) ?_
    exact ite_ne_nil (cons_ne_nil _ _) (cons_ne_nil _ _)

theorem bufWrite_zBuf_ne_nil {b : Buffer Byte} {z : Bytes} {t : Tags} (hz : z ≠ [])
    (h : (bufWrite 1 b z t).bFail = false) : (bufWrite 1 b z t).zBuf ≠ [] := by
  rw [bufWrite_zBuf Nat.one_pos h]
  simp [hz]

theorem substChars_keeps {f : σ → Bytes → Except Failure (TString × σ)}
    {n : ℕ} {s s' : σ} {z : Bytes} {b b' : Buffer Byte}
    (h : substChars env f n s z b = .ok (b', s')) (hfail : b'.bFail = false) :
    b.bFail = false ∧ (b'.zBuf = [] → b.zBuf = []) := by
  have hwrite : ∀ (b : Buffer Byte) (y : Bytes) (t : Tags),
      (bufWrite 1 b y t).bFail = false ∧ (b'.zBuf = [] → (bufWrite 1 b y t).zBuf = []) →
      b.bFail = false ∧ (b'.zBuf = [] → b.zBuf = []) := by
    intro b y t hb
    refine ⟨bufWrite_bFail_mono hb.1, fun hnil => ?_⟩
    have hy := hb.2 hnil
    rw [bufWrite_zBuf Nat.one_pos hb.1] at hy
    exact (append_eq_nil_iff.mp hy).1
  induction n generalizing s z b with
  | zero =>
    cases z with
    | nil =>
      simp only [substChars, Except.ok.injEq, Prod.mk.injEq] at h
      exact ⟨h.1 ▸ hfail, fun hnil => h.1 ▸ hnil⟩
    | cons c rest => simp [substChars] at h
  | succ n ih =>
    cases z with
    | nil =>
      simp only [substChars, Except.ok.injEq, Prod.mk.injEq] at h
      exact ⟨h.1 ▸ hfail, fun hnil => h.1 ▸ hnil⟩
    | cons c rest =>
      unfold substChars at h
      simp only at h
      split_ifs at h
      · obtain ⟨k, -, hk⟩ := bind_eq_ok.mp h
        exact hwrite _ _ _ (ih hk)
      · obtain ⟨k, -, hk⟩ := bind_eq_ok.mp h
        obtain ⟨r, -, hr⟩ := bind_eq_ok.mp hk
        exact hwrite _ _ _ (ih hr)
      · obtain ⟨k, -, hk⟩ := bind_eq_ok.mp h
        split_ifs at hk
        · exact hwrite _ _ _ (ih hk)
        · obtain ⟨r, -, hr⟩ := bind_eq_ok.mp hk
          exact hwrite _ _ _ (ih hr)
      · exact hwrite _ _ _ (ih h)

def refValue (env : Env σ) (s : σ) (zRef : Bytes) : Except Failure TString :=
  (substVarName env (fun t idx => substWord env (idx.length + 1) t idx) s zRef).map Prod.fst

/-- The text is a sequence of variable references, all of whose values are empty;
the index collects the tags of these values. -/
inductive EmptyRefs (env : Env σ) (s : σ) : Bytes → Tags → Prop where
  | nil : EmptyRefs env s [] Tags.clean
  | ref {z : Bytes} {n : ℕ} {t u : Tags} (hdollar : z.head? = some chDollar)
      (hname : nextVarName z = .ok n) (hn : 1 < n)
      (hvalue : refValue env s (z.take n) = .ok ⟨[], t⟩)
      (hrest : EmptyRefs env s (z.drop n) u) : EmptyRefs env s z (t ||| u)

theorem substVarName_eq_refValue {k : ℕ} {s : σ} {zRef : Bytes}
    (hbracket : chOpenBracket ∉ zRef) (hk : zRef.length ≤ k) :
    substVarName env (substWord env k) s zRef = (refValue env s zRef).map fun v => (v, s) := by
  have hcongr : substVarName env (substWord env k) s zRef =
      substVarName env (fun t idx => substWord env (idx.length + 1) t idx) s zRef := by
    refine substVarName_congr s fun t idx hidx => ?_
    exact substWord_fuel t (by omega) (by omega)
  rw [refValue, ← hcongr]
  cases hvar : substVarName env (substWord env k) s zRef with
  | error e => rfl
  | ok r =>
    obtain ⟨v, s'⟩ := r
    have hstate : s' = s := by
      refine substVarName_state hbracket (fun t t' idx w hidx hw => ?_) hvar
      exact substWord_state hidx hw
    rw [hstate]
    rfl

theorem substChars_after_write {f : σ → Bytes → Except Failure (TString × σ)}
    {n : ℕ} {s s' : σ} {z y : Bytes} {t : Tags} {b b' : Buffer Byte}
    (h : substChars env f n s z (bufWrite 1 b y t) = .ok (b', s')) (hy : y ≠ [])
    (hfail : b'.bFail = false) : b'.zBuf ≠ [] := by
  obtain ⟨hok, hkeep⟩ := substChars_keeps h hfail
  exact fun hnil => bufWrite_zBuf_ne_nil hy hok (hkeep hnil)

theorem emptyRefs_nil_of_substChars {f : σ → Bytes → Except Failure (TString × σ)}
    {n : ℕ} {s s' : σ} {b b' : Buffer Byte}
    (h : substChars env f n s [] b = .ok (b', s')) :
    ∃ u, EmptyRefs env s [] u ∧ b'.nTag = b.nTag ||| u := by
  simp only [substChars, Except.ok.injEq, Prod.mk.injEq] at h
  exact ⟨Tags.clean, EmptyRefs.nil, by simp [h.1]⟩

theorem emptyRefs_of_substChars {k n : ℕ} {s s' : σ} {z : Bytes}
    {b b' : Buffer Byte} (hbracket : chOpenBracket ∉ z) (hk : z.length ≤ k)
    (h : substChars env (substWord env k) n s z b = .ok (b', s'))
    (hfail : b'.bFail = false) (hempty : b'.zBuf = []) :
    ∃ u, EmptyRefs env s z u ∧ b'.nTag = b.nTag ||| u := by
  induction n generalizing z b with
  | zero =>
    cases z with
    | nil => exact emptyRefs_nil_of_substChars h
    | cons c rest => simp [substChars] at h
  | succ n ih =>
    cases z with
    | nil => exact emptyRefs_nil_of_substChars h
    | cons c rest =>
      unfold substChars at h
      simp only at h
      split_ifs at h with hesc hopen hdollar
      · obtain ⟨j, -, hj⟩ := bind_eq_ok.mp h
        exact absurd hempty (substChars_after_write hj (escapeBytes_ne_nil _) hfail)
      · have hc : c = chOpenBracket := by simpa using hopen
        exact absurd (hc ▸ mem_cons_self) hbracket
      · obtain ⟨j, hj, hrest⟩ := bind_eq_ok.mp h
        split_ifs at hrest with hone
        · exact absurd hempty (substChars_after_write hrest (cons_ne_nil _ _) hfail)
        · have htake : chOpenBracket ∉ (c :: rest).take j := fun hmem =>
            hbracket (mem_of_mem_take hmem)
          have hlen : ((c :: rest).take j).length ≤ k := by
            rw [length_take]
            omega
          rw [substVarName_eq_refValue htake hlen] at hrest
          obtain ⟨r, hr, hnext⟩ := bind_eq_ok.mp hrest
          obtain ⟨⟨bytes, tags⟩, hvalue, rfl⟩ := map_eq_ok.mp hr
          by_cases hbytes : bytes = []
          · subst hbytes
            simp only [bufWrite_nil] at hnext
            obtain ⟨u, hu, htags⟩ := ih (fun hmem => hbracket (mem_of_mem_drop hmem))
              (by rw [length_drop]; omega) hnext
            refine ⟨tags ||| u, EmptyRefs.ref ?_ hj (by omega) hvalue hu, ?_⟩
            · have hc : c = chDollar := by simpa using hdollar
              rw [hc]
              rfl
            · rw [htags, Tags.or_assoc]
          · exact absurd hempty (substChars_after_write hnext hbytes hfail)
      · exact absurd hempty (substChars_after_write h (cons_ne_nil _ _) hfail)

theorem substChars_of_emptyRefs {k n : ℕ} {s : σ} {z : Bytes} {u : Tags}
    (h : EmptyRefs env s z u) (b : Buffer Byte) (hbracket : chOpenBracket ∉ z)
    (hn : z.length ≤ n) (hk : z.length ≤ k) :
    substChars env (substWord env k) n s z b = .ok ({ b with nTag := b.nTag ||| u }, s) := by
  induction h generalizing b n with
  | nil => simp [substChars]
  | @ref z j t u hdollar hname hj hvalue hrest ih =>
    cases z with
    | nil => simp at hdollar
    | cons c rest =>
      have hc : c = chDollar := by simpa using hdollar
      subst hc
      cases n with
      | zero => simp at hn
      | succ n =>
        have htake : chOpenBracket ∉ (chDollar :: rest).take j := fun hmem =>
          hbracket (mem_of_mem_take hmem)
        have hlen : ((chDollar :: rest).take j).length ≤ k := by
          rw [length_take]
          omega
        have hnext := ih { b with nTag := b.nTag ||| t }
          (fun hmem => hbracket (mem_of_mem_drop hmem)) (n := n)
          (by rw [length_drop]; simp only [length_cons] at hn ⊢; omega) (by rw [length_drop]; omega)
        unfold substChars
        simp only [(by decide : (chDollar == chBackslash) = false),
          (by decide : (chDollar == chOpenBracket) = false),
          (by decide : (chDollar == chDollar) = true), Bool.false_eq_true,
          if_false, if_true, hname, ok_bind, if_neg (Nat.not_le.mpr hj),
          substVarName_eq_refValue htake hlen, hvalue, map_ok, bufWrite_nil, hnext, Tags.or_assoc]

def stripQuotes (zWord : Bytes) : Bytes :=
  if isQuoted zWord then inner zWord else zWord

theorem substBraced_nTag (inCont : Bool) (z : Bytes) (b : Buffer Byte) :
    (substBraced inCont z b).nTag = b.nTag := by
  fun_induction substBraced inCont z b with
  | case1 => rfl
  | case2 inCont c rest b hblank ih => exact ih
  | case3 inCont c b hblank hback => simp [bufAddChar]
  | case4 inCont c b hblank hback d rest hnl ih => simpa [bufAddChar] using ih
  | case5 inCont c b hblank hback d rest hnl ih => simpa [bufAddChar] using ih
  | case6 inCont c rest b hblank hback ih => simpa [bufAddChar] using ih

theorem not_emptyRefs_braced {s : σ} {z : Bytes} {u : Tags} (hbraced : isBraced z)
    (h : EmptyRefs env s (stripQuotes z) u) : False := by
  simp only [isBraced, Bool.and_eq_true, beq_iff_eq] at hbraced
  have hhead : z.head? = some chOpenBrace := hbraced.1.2
  have hstrip : stripQuotes z = z := by
    simp [stripQuotes, isQuoted, hhead, (by decide : chOpenBrace ≠ chQuote)]
  rw [hstrip] at h
  cases h with
  | nil => simp at hhead
  | ref hdollar hname hn hvalue hrest =>
    rw [hdollar] at hhead
    exact absurd hhead (by decide)

theorem wordValue_tagged_empty_iff {s : σ} {z : Bytes} {u : Tags}
    (hbracket : chOpenBracket ∉ z) (hu : u ≠ Tags.clean) :
    wordValue env s z = .ok (⟨[], u⟩, s) ↔ EmptyRefs env s (stripQuotes z) u := by
  have hscan : ∀ y : Bytes, chOpenBracket ∉ y → y.length ≤ z.length →
      ((do
        let (output, s') ← substChars env (substWord env z.length) z.length s y bufInit
        if output.bFail then .error (.static "out of memory")
        else return (TString.mk output.zBuf output.nTag, s') :
          Except Failure (TString × σ)) = .ok (⟨[], u⟩, s) ↔ EmptyRefs env s y u) := by
    intro y hy hlen
    constructor
    · intro h
      obtain ⟨⟨output, s'⟩, hout, hrest⟩ := bind_eq_ok.mp h
      simp only at hrest
      split_ifs at hrest with hfail
      simp only [pure_eq_ok, Except.ok.injEq, Prod.mk.injEq, TString.mk.injEq] at hrest
      obtain ⟨v, hv, htags⟩ := emptyRefs_of_substChars hy hlen hout (by simpa using hfail) hrest.1.1
      have huv : v = u := by simpa [htags] using hrest.1.2
      exact huv ▸ hv
    · intro h
      rw [substChars_of_emptyRefs h bufInit hy hlen hlen]
      simp
  unfold wordValue substOutput
  by_cases hbraced : isBraced z
  · refine ⟨fun h => ?_, fun h => (not_emptyRefs_braced hbraced h).elim⟩
    rw [if_pos hbraced] at h
    simp only [ok_bind] at h
    split_ifs at h
    simp only [pure_eq_ok, Except.ok.injEq, Prod.mk.injEq, TString.mk.injEq,
      substBraced_nTag, bufInit_nTag] at h
    exact absurd h.1.2.symm hu
  · rw [if_neg hbraced, stripQuotes]
    split_ifs with hquoted
    · exact hscan _ (inner_not_mem hbracket) (inner_length_le z)
    · exact hscan _ hbracket (Nat.le_refl _)

/-! ## Agreement -/

def TagTransparent (xExpand : ExpansionProc) : Prop :=
  ∀ z t, xExpand ⟨z, t⟩ = (xExpand (.plain z)).map fun elements => elements.map fun x => x.addTags t

theorem builtinExpand_tagTransparent (splitList : Bytes → Except Failure (List Bytes)) :
    TagTransparent (builtinExpand splitList) := by
  intro z t
  unfold builtinExpand
  cases z with
  | nil => rfl
  | cons c rest =>
    simp only [TString.plain]
    cases splitList (c :: rest) with
    | error e => rfl
    | ok elements => simp [TString.addTags]

/-- The tags of the empty value `⟨[], t⟩` reach an argument. -/
def TagsMatter (expansion : Expansion) (t : Tags) : Prop :=
  match expansion with
  | none => True
  | some (_, xExpand) => ∃ elements, xExpand (.plain []) = .ok elements ∧
      ∃ x ∈ elements, x.addTags t ≠ x

/-- The word is a sequence of references to empty variables, the tags of one of
which an argument of the command should have. -/
def TaggedEmptyWord (env : Env σ) (s : σ) (zWord : Bytes) : Prop :=
  ∃ expansion t, checkExpansionPrefix env s zWord = .ok expansion ∧
    t ≠ Tags.clean ∧ EmptyRefs env s (stripQuotes (wordRest zWord expansion)) t ∧
    TagsMatter expansion t

theorem wordValue_state {s s' : σ} {z : Bytes} {v : TString}
    (hbracket : chOpenBracket ∉ z) (h : wordValue env s z = .ok (v, s')) :
    s' = s := by
  obtain ⟨⟨output, t⟩, hout, hrest⟩ := bind_eq_ok.mp h
  simp only at hrest
  split_ifs at hrest
  cases hrest
  exact substOutput_state hbracket (fun _ _ _ _ hidx hw => substWord_state hidx hw) hout

def deliver (expansion : Expansion) (v : TString) : Except Failure (List TString) :=
  match expansion with
  | none => .ok [v]
  | some (_, xExpand) => xExpand v

theorem map_addTags_eq_self_iff (t : Tags) (xs : List TString) :
    xs.map (fun x => x.addTags t) = xs ↔ ∀ x ∈ xs, x.addTags t = x := by
  induction xs with
  | nil => simp
  | cons x xs ih => simp [ih]

theorem deliver_dropEmptyTags {expansion : Expansion}
    (htransparent : ∀ n x, expansion = some (n, x) → TagTransparent x) (v : TString) :
    match deliver expansion v with
    | .error _ => ∃ e, deliver expansion (dropEmptyTags v) = .error e
    | .ok xs => ∃ ys, deliver expansion (dropEmptyTags v) = .ok ys ∧
        ys.map TString.bytes = xs.map TString.bytes ∧
        (ys = xs ↔ ¬ (v.bytes = [] ∧ v.tags ≠ Tags.clean ∧ TagsMatter expansion v.tags)) := by
  obtain ⟨bytes, tags⟩ := v
  cases bytes with
  | cons c rest =>
    have hsame : dropEmptyTags ⟨c :: rest, tags⟩ = ⟨c :: rest, tags⟩ := rfl
    rw [hsame]
    cases hdeliver : deliver expansion ⟨c :: rest, tags⟩ with
    | error e => exact ⟨e, rfl⟩
    | ok xs => exact ⟨xs, rfl, rfl, by simp⟩
  | nil =>
    have hdrop : dropEmptyTags ⟨[], tags⟩ = .plain [] := rfl
    rw [hdrop]
    cases expansion with
    | none =>
      refine ⟨[.plain []], rfl, rfl, ?_⟩
      simp [TString.plain, TagsMatter, eq_comm]
    | some x =>
      obtain ⟨n, xExpand⟩ := x
      simp only [deliver, TagsMatter, htransparent n xExpand rfl [] tags]
      cases hplain : xExpand (.plain []) with
      | error e => exact ⟨e, rfl⟩
      | ok elements =>
        refine ⟨elements, rfl, by simp [TString.addTags], ?_⟩
        rw [eq_comm, map_addTags_eq_self_iff]
        constructor
        · rintro hall ⟨-, -, els, hels, x, hx, hne⟩
          cases hels
          exact hne (hall x hx)
        · intro hnot x hx
          by_contra hne
          refine hnot ⟨trivial, ?_, elements, rfl, x, hx, hne⟩
          rintro rfl
          exact hne (TString.addTags_clean x)

theorem wordArgs_eq_deliver {s : σ} {z : Bytes} {expansion : Expansion}
    (hcheck : checkExpansionPrefix env s z = .ok expansion)
    (htransparent : ∀ n x, expansion = some (n, x) → TagTransparent x) :
    wordArgs env s z = (do
      let (v, s') ← wordValue env s (wordRest z expansion)
      let xs ← deliver expansion v
      return (xs, s')) := by
  unfold wordArgs
  rw [hcheck]
  cases expansion with
  | none => rfl
  | some x =>
    obtain ⟨n, xExpand⟩ := x
    simp only [ok_bind, wordRest]
    cases wordValue env s (z.drop (n + 2)) with
    | error e => rfl
    | ok r =>
      obtain ⟨⟨bytes, tags⟩, s'⟩ := r
      simp only [ok_bind, deliver, htransparent n xExpand rfl bytes tags]
      cases xExpand (.plain bytes) with
      | error e => rfl
      | ok elements => rfl

theorem syncWord_eq_deliver {s : σ} {z : Bytes} {expansion : Expansion}
    (hcheck : checkExpansionPrefix env s z = .ok expansion) :
    syncWord env s z = (do
      let (v, s') ← wordValue env s (wordRest z expansion)
      let xs ← deliver expansion (dropEmptyTags v)
      return (xs, s')) := by
  unfold syncWord
  rw [hcheck]
  cases expansion with
  | none =>
    simp only [ok_bind, wordRest, substWord_eq_wordValue]
    cases wordValue env s z with
    | error e => rfl
    | ok r => rfl
  | some x =>
    simp only [ok_bind, wordRest, substWord_eq_wordValue]
    cases wordValue env s (z.drop (x.1 + 2)) with
    | error e => rfl
    | ok r => rfl

theorem checkExpansionPrefix_some {s : σ} {z : Bytes} {n : ℕ} {x : ExpansionProc}
    (h : checkExpansionPrefix env s z = .ok (some (n, x))) :
    ∃ tag, env.findExpansion s tag = some x := by
  unfold checkExpansionPrefix at h
  split at h
  · dsimp only at h
    split at h
    · split at h
      · split at h
        · cases h
        · split at h
          · rename_i hfind
            simp only [Except.ok.injEq, Option.some.injEq, Prod.mk.injEq] at h
            exact ⟨_, h.2 ▸ hfind⟩
          · cases h
      · cases h
    · cases h
  · cases h

theorem syncWord_compare (hexpand : ∀ t tag x, env.findExpansion t tag = some x →
      TagTransparent x) {s : σ} {z : Bytes} (hbracket : chOpenBracket ∉ z) :
    match wordArgs env s z with
    | .error _ => ∃ e, syncWord env s z = .error e
    | .ok (xs, s') => s' = s ∧ ∃ ys, syncWord env s z = .ok (ys, s) ∧
        ys.map TString.bytes = xs.map TString.bytes ∧ (ys = xs ↔ ¬ TaggedEmptyWord env s z) := by
  cases hcheck : checkExpansionPrefix env s z with
  | error e =>
    have hargs : wordArgs env s z = .error e := by simp [wordArgs, hcheck]
    rw [hargs]
    exact ⟨e, by simp [syncWord, hcheck]⟩
  | ok expansion =>
    have htransparent : ∀ n x, expansion = some (n, x) → TagTransparent x := by
      rintro n x rfl
      obtain ⟨tag, htag⟩ := checkExpansionPrefix_some hcheck
      exact hexpand s tag x htag
    have hrest := wordRest_not_mem expansion hbracket
    rw [wordArgs_eq_deliver hcheck htransparent, syncWord_eq_deliver hcheck]
    cases hvalue : wordValue env s (wordRest z expansion) with
    | error e => exact ⟨e, rfl⟩
    | ok r =>
      obtain ⟨v, s'⟩ := r
      have hstate : s' = s := wordValue_state hrest hvalue
      subst hstate
      have hcompare := deliver_dropEmptyTags htransparent v
      simp only [ok_bind]
      cases hdeliver : deliver expansion v with
      | error e =>
        rw [hdeliver] at hcompare
        obtain ⟨d, hd⟩ := hcompare
        exact ⟨d, by rw [hd]; rfl⟩
      | ok xs =>
        rw [hdeliver] at hcompare
        obtain ⟨ys, hys, hbytes, hiff⟩ := hcompare
        refine ⟨rfl, ys, by rw [hys]; rfl, hbytes, hiff.trans (not_congr ?_)⟩
        constructor
        · rintro ⟨hnil, htags, hmatter⟩
          obtain ⟨bytes, tags⟩ := v
          subst hnil
          refine ⟨expansion, tags, hcheck, htags, ?_, hmatter⟩
          exact (wordValue_tagged_empty_iff hrest htags).mp hvalue
        · rintro ⟨expansion', t, hcheck', ht, hrefs, hmatter⟩
          rw [hcheck] at hcheck'
          cases hcheck'
          have hv := (wordValue_tagged_empty_iff hrest ht).mpr hrefs
          rw [hvalue] at hv
          cases hv
          exact ⟨rfl, ht, hmatter⟩

/-- The words of a command text, each with the state in which it is built, up to
the first one that cannot be delimited. -/
def wordsOf (env : Env σ) : ℕ → σ → Bytes → List (σ × Bytes)
  | 0, _, _ => []
  | _, _, [] => []
  | fuel + 1, s, c :: rest =>
    match env.ready s with
    | .error _ => []
    | .ok s₁ =>
      let zInput := (c :: rest).drop (nextSpace (c :: rest))
      match nextWord zInput false with
      | .error _ => []
      | .ok nWord =>
        if zInput.length = 0 ∨ nWord = 0 then []
        else (s₁, zInput.take nWord) :: wordsOf env fuel s₁ (zInput.drop nWord)

/-- A whole command text in the two builders. -/
theorem wordLoop_compare (hexpand : ∀ t tag x, env.findExpansion t tag = some x →
      TagTransparent x) (n : ℕ) (s : σ) {z : Bytes} (hbracket : chOpenBracket ∉ z) :
    match wordLoop env (wordArgs env) n s z with
    | .error _ => ∃ e, wordLoop env (syncWord env) n s z = .error e
    | .ok (xs, s') => ∃ ys, wordLoop env (syncWord env) n s z = .ok (ys, s') ∧
        ys.map TString.bytes = xs.map TString.bytes ∧
        (ys = xs ↔ ∀ p ∈ wordsOf env n s z, ¬ TaggedEmptyWord env p.1 p.2) := by
  induction n generalizing s z with
  | zero =>
    cases z with
    | nil => exact ⟨[], rfl, rfl, by simp [wordsOf]⟩
    | cons c rest => exact ⟨.silent, rfl⟩
  | succ n ih =>
    cases z with
    | nil => exact ⟨[], rfl, rfl, by simp [wordsOf]⟩
    | cons c rest =>
      unfold wordLoop wordsOf
      cases env.ready s with
      | error e => exact ⟨e, rfl⟩
      | ok s₁ =>
        simp only [ok_bind]
        have hdrop : chOpenBracket ∉ (c :: rest).drop (nextSpace (c :: rest)) :=
          fun hmem => hbracket (mem_of_mem_drop hmem)
        generalize (c :: rest).drop (nextSpace (c :: rest)) = zInput at *
        by_cases hempty : zInput.length = 0
        · rw [if_pos hempty]
          refine ⟨[], by rw [if_pos hempty]; rfl, rfl, ?_⟩
          cases nextWord zInput false <;> simp [hempty]
        rw [if_neg hempty]
        cases nextWord zInput false with
        | error e => exact ⟨e, by rw [if_neg hempty]; rfl⟩
        | ok nWord =>
          simp only [ok_bind, if_neg hempty]
          by_cases hzero : nWord = 0
          · simp only [if_pos hzero, pure_eq_ok]
            exact ⟨[], rfl, rfl, by simp [hzero]⟩
          simp only [if_neg hzero, hempty, false_or]
          have hword := @syncWord_compare σ env hexpand s₁ (zInput.take nWord)
            (fun hmem => hdrop (mem_of_mem_take hmem))
          cases hargs : wordArgs env s₁ (zInput.take nWord) with
          | error e =>
            rw [hargs] at hword
            obtain ⟨d, hd⟩ := hword
            exact ⟨d, by rw [hd]; rfl⟩
          | ok r =>
            obtain ⟨xs, s₂⟩ := r
            rw [hargs] at hword
            obtain ⟨hstate, ys, hys, hbytes, hiff⟩ := hword
            subst hstate
            have hnext := ih s₂ (z := zInput.drop nWord) (fun hmem => hdrop (mem_of_mem_drop hmem))
            simp only [ok_bind, hys]
            cases hloop : wordLoop env (wordArgs env) n s₂ (zInput.drop nWord) with
            | error e =>
              rw [hloop] at hnext
              obtain ⟨d, hd⟩ := hnext
              exact ⟨d, by rw [hd]; rfl⟩
            | ok t =>
              obtain ⟨xs', s₃⟩ := t
              rw [hloop] at hnext
              obtain ⟨ys', hys', hbytes', hiff'⟩ := hnext
              refine ⟨ys ++ ys', by rw [hys']; rfl, ?_, ?_⟩
              · simp [hbytes, hbytes']
              · have hlen : ys.length = xs.length := by
                  simpa using congrArg List.length hbytes
                have happend : ys ++ ys' = xs ++ xs' ↔ ys = xs ∧ ys' = xs' :=
                  ⟨fun h => append_inj h hlen, fun h => by rw [h.1, h.2]⟩
                rw [happend, hiff, hiff']
                simp

/-- For a text without an open bracket the two builders agree exactly when the
text stands for no argument vector at all, or none of its words is a sequence of
references to empty variables whose tags an argument should have. -/
theorem splitCommand_agree_nrCommand_iff (env : Env σ)
    (hexpand : ∀ t tag x, env.findExpansion t tag = some x → TagTransparent x)
    (s : σ) (zCmd : Bytes) (hbracket : chOpenBracket ∉ zCmd) :
    Agree ((splitCommand env s zCmd).map Prod.fst) ((nrCommand env s zCmd).map Prod.fst) ↔
      (∃ e, commandArgs env s zCmd = .error e) ∨
        ∀ p ∈ wordsOf env zCmd.length s zCmd, ¬ TaggedEmptyWord env p.1 p.2 := by
  rw [nrCommand_eq_commandArgs s hbracket, splitCommand_eq_wordLoop]
  unfold commandArgs
  have hcompare := wordLoop_compare hexpand zCmd.length s hbracket
  cases hloop : wordLoop env (wordArgs env) zCmd.length s zCmd with
  | error e =>
    rw [hloop] at hcompare
    obtain ⟨d, hd⟩ := hcompare
    simp [hd]
  | ok r =>
    obtain ⟨xs, s'⟩ := r
    rw [hloop] at hcompare
    obtain ⟨ys, hys, hbytes, hiff⟩ := hcompare
    simp only [hys, ok_bind, fits_congr hbytes, ← hiff]
    by_cases hfits : Fits xs
    · simp [hfits]
    · simp [hfits]

/-- An interpreter that is always ready, with a table of variables and the
built-in expansion operator, for lists of a single plain element. -/
def tableEnv (vars : List (Bytes × TString)) : Env Unit where
  ready := fun s => .ok s
  getVar := fun _ name =>
    match vars.lookup name.bytes with
    | some v => .ok v
    | none => .error (.message "no such variable:" name.bytes)
  eval := fun _ _ => .error .silent
  findExpansion := fun _ tag =>
    if tag == [chStar] then some (builtinExpand fun z => .ok [z]) else none

theorem tableEnv_tagTransparent (vars : List (Bytes × TString)) :
    ∀ t tag x, (tableEnv vars).findExpansion t tag = some x → TagTransparent x := by
  intro t tag x h
  simp only [tableEnv] at h
  split_ifs at h
  cases h
  exact builtinExpand_tagTransparent _

/-- With the tainted empty variable `v`, the text `a $v` gives a clean second
argument in one builder and a tainted one in the other. -/
theorem splitCommand_disagrees_nrCommand :
    chOpenBracket ∉ ascii "a $v" ∧
      ¬ Agree
        ((splitCommand (tableEnv [(ascii "v", ⟨[], ⟨true, false⟩⟩)]) ()
          (ascii "a $v")).map Prod.fst)
        ((nrCommand (tableEnv [(ascii "v", ⟨[], ⟨true, false⟩⟩)]) ()
          (ascii "a $v")).map Prod.fst) := by
  decide

/-- With a tainted value that is not empty the builders agree, also under
expansion. -/
theorem splitCommand_agree_nrCommand_iff_expanded :
    Agree
        ((splitCommand (tableEnv [(ascii "v", ⟨ascii "x", ⟨true, false⟩⟩)]) ()
          (ascii "a \x7b*\x7d$v")).map Prod.fst)
        ((nrCommand (tableEnv [(ascii "v", ⟨ascii "x", ⟨true, false⟩⟩)]) ()
          (ascii "a \x7b*\x7d$v")).map Prod.fst) ↔
      (∃ e, commandArgs (tableEnv [(ascii "v", ⟨ascii "x", ⟨true, false⟩⟩)]) ()
          (ascii "a \x7b*\x7d$v") = .error e) ∨
        ∀ p ∈ wordsOf (tableEnv [(ascii "v", ⟨ascii "x", ⟨true, false⟩⟩)])
            (ascii "a \x7b*\x7d$v").length () (ascii "a \x7b*\x7d$v"),
          ¬ TaggedEmptyWord (tableEnv [(ascii "v", ⟨ascii "x", ⟨true, false⟩⟩)]) p.1 p.2 :=
  splitCommand_agree_nrCommand_iff _ (tableEnv_tagTransparent _) () _ (by decide)

end Th8
