import Th8.Eval.TaintGate
import Th8.Lists.ScriptWords

/-!
# A list evaluated as a script

The text of a list is one command to the evaluation loop: its words are the elements of
the list, and building them reads no variable and runs no script.  The exception is an
element written inside braces with a newline right behind a backslash, which reaches the
command with a space in place of the two.
-/

namespace Th8

open Support List

/-! ## One word -/

def scriptValue (e : Bytes) : Bytes :=
  if writtenInBraces e then bracedBytes false e else e

def LosesNewline (e : Bytes) : Prop :=
  writtenInBraces e = true ∧ hasContinuation e = true

instance (e : Bytes) : Decidable (LosesNewline e) := inferInstanceAs (Decidable (_ ∧ _))

theorem scriptValue_eq_self_iff (e : Bytes) : scriptValue e = e ↔ ¬LosesNewline e := by
  unfold scriptValue LosesNewline
  rcases writtenInBraces e
  · simp
  · simp [bracedBytes_eq_self_iff]

theorem Spelled.head {depth : ℕ} {e p : Bytes} {c : Byte} (h : Spelled depth e (c :: p)) :
    (c = chBackslash ∧ ∃ x p', p = x :: p' ∧ x ≠ chNewline) ∨ Inert c := by
  cases h with
  | byte hinert => exact .inr hinert
  | escape hx => exact .inl ⟨rfl, _, _, rfl, hx.newline⟩
  | opened => exact .inr (by decide)
  | closed => exact .inr (by decide)

theorem Nested.tail {c : Byte} {z : Bytes} (hc : isTagByte c = true)
    (h : Nested 0 (c :: z)) : Nested 0 z := by
  cases h with
  | byte hopen hclose hback h => exact h
  | escape h => exact absurd hc (by decide)
  | opened h => exact absurd hc (by decide)

theorem not_nested_tag {t e : Bytes} (htag : ∀ c ∈ t, isTagByte c = true) :
    ¬Nested 0 (t ++ chCloseBrace :: e) := by
  induction t with
  | nil =>
    intro h
    cases h with
    | byte hopen hclose hback h => exact hclose rfl
  | cons c t ih =>
    intro h
    exact ih (fun d hd => htag d (mem_cons_of_mem _ hd)) (h.tail (htag c mem_cons_self))

theorem isBraced_braced (e : Bytes) : isBraced (chOpenBrace :: e ++ [chCloseBrace]) = true := by
  simp [isBraced, getLast?_cons]

theorem inner_braced (e : Bytes) : inner (chOpenBrace :: e ++ [chCloseBrace]) = e := by
  simp [inner]

theorem drop_takeWhile_length (p : Byte → Bool) (z rest : Bytes) :
    (z ++ rest).drop (z.takeWhile p).length = z.dropWhile p ++ rest := by
  conv_lhs => rw [← takeWhile_append_dropWhile (p := p) (l := z), append_assoc]
  simp

section Word

variable {e q : Bytes} (h : ListWord e q)

include h

theorem ListWord.head : ∃ c p, q = c :: p ∧ c ≠ chHash ∧ c ≠ chSemicolon ∧
    c ≠ chQuote ∧ ∀ rest, AtToken (q ++ rest) := by
  rcases h with ⟨hbraces, hnested⟩ | @⟨c, p, hbraces, hspelled, hopen, hhash⟩
  · exact ⟨_, _, rfl, by decide, by decide, by decide, fun rest => .byte rfl (by decide)⟩
  · refine ⟨c, p, rfl, hhash, ?_⟩
    obtain ⟨rfl, x, p', rfl, hx⟩ | ⟨hspace, hsemi, hback, hquote, -⟩ := hspelled.head
    · exact ⟨by decide, by decide, fun rest => .escape hx⟩
    · exact ⟨hsemi, hquote, fun rest => .byte hspace hback⟩

theorem ListWord.nextWord {rest : Bytes} (hend : atElementEnd rest = true) (isCmd : Bool) :
    nextWord (q ++ rest) isCmd = .ok q.length := by
  have hstop : nextWordFrom isCmd [] rest = ([], 0) := by
    rcases rest with _ | ⟨c, p⟩
    · rfl
    · have hspace : isSpace c = true := hend
      rw [nextWordFrom.eq_def]
      simp [hspace]
  have hscan : nextWordScan isCmd (q ++ rest) = ([], q.length) := by
    obtain ⟨c, p, hq, -, -, hquote, -⟩ := h.head
    rcases h with ⟨hbraces, hnested⟩ | @⟨d, z, hbraces, hspelled, hopen, hhash⟩
    · have hread := hnested.nextWordFrom isCmd rest
      rw [hstop] at hread
      rw [append_assoc, cons_append, nextWordScan]
      change advance 1 (nextWordFrom isCmd (List.replicate (0 + 1) .brace)
        (e ++ chCloseBrace :: rest)) = _
      rw [hread]
      simp [advance]
    · have hread := hspelled.nextWordFrom isCmd rest
      rw [hstop] at hread
      rw [← (List.cons.inj hq).1] at hquote
      have hfirst : (d == chQuote || d == chOpenBrace) = false := by simp [hquote, hopen]
      rw [cons_append, nextWordScan, hfirst, if_neg Bool.false_ne_true]
      simpa [advance] using hread
  rw [Th8.nextWord, hscan]

theorem ListWord.checkExpansionPrefix {σ : Type} (env : Env σ) (s : σ) :
    checkExpansionPrefix env s q = .ok none := by
  rcases h with ⟨hbraces, hnested⟩ | @⟨c, p, hbraces, hspelled, hopen, hhash⟩
  · have htag : ((chOpenBrace :: e ++ [chCloseBrace]).drop 1).takeWhile isTagByte =
        e.takeWhile isTagByte := by
      rw [cons_append, drop_one, tail_cons]
      exact takeWhile_append_stop rfl e []
    have hdrop : (chOpenBrace :: e ++ [chCloseBrace]).drop
        ((e.takeWhile isTagByte).length + 1) = e.dropWhile isTagByte ++ [chCloseBrace] := by
      rw [cons_append, drop_succ_cons, drop_takeWhile_length]
    unfold Th8.checkExpansionPrefix
    split
    · simp only [htag, hdrop]
      rcases hrest : e.dropWhile isTagByte with _ | ⟨c, z⟩
      · rfl
      · have hc : (c == chCloseBrace) = false := by
          rw [beq_eq_false_iff_ne]
          rintro rfl
          have he : e = e.takeWhile isTagByte ++ chCloseBrace :: z := by
            rw [← hrest, takeWhile_append_dropWhile]
          rw [he] at hnested
          exact not_nested_tag (fun c hc => mem_takeWhile_imp hc) hnested
        rcases z with _ | ⟨d, z⟩ <;> simp [hc]
    · rfl
  · have hhead : ((c :: p).head? == some chOpenBrace) = false := by simp [hopen]
    rw [Th8.checkExpansionPrefix, hhead]
    simp

theorem ListWord.substOutput {σ : Type} (env : Env σ)
    (f : σ → Bytes → Except Failure (TString × σ)) (s : σ) :
    substOutput env f s q = .ok (addChars bufInit (scriptValue e), s) := by
  obtain ⟨c', p', hq, -, -, hquote, -⟩ := h.head
  rcases h with ⟨hbraces, hnested⟩ | @⟨c, p, hbraces, hspelled, hopen, hhash⟩
  · rw [Th8.substOutput, if_pos (isBraced_braced e), inner_braced, substBraced_eq]
    simp [scriptValue, hbraces]
  · rw [← (List.cons.inj hq).1] at hquote
    have hnobrace : isBraced (c :: p) = false := by simp [isBraced, hopen]
    have hnoquote : isQuoted (c :: p) = false := by simp [isQuoted, hquote]
    rw [Th8.substOutput, hnobrace, hnoquote, if_neg Bool.false_ne_true,
      if_neg Bool.false_ne_true, hspelled.substChars env f (Nat.le_refl _)]
    simp [scriptValue, hbraces]

theorem ListWord.nrSubstChars {σ : Type} (env : Env σ) (s : σ) (p : CmdBuild)
    {zInput : Bytes} {nWord : ℕ} (hword : zInput.take nWord = q) :
    let b := nrBeginWord p zInput nWord none
    nrSubstChars env b.zWord.length s b.zWord b.wordBuf =
      .ok (.wordDone (addChars bufInit (scriptValue e)) s) := by
  intro b
  obtain ⟨c', p', hq, -, -, hquote, -⟩ := h.head
  rcases h with ⟨hbraces, hnested⟩ | @⟨c, p, hbraces, hspelled, hopen, hhash⟩
  · have hb : b.zWord = [] ∧ b.wordBuf = addChars bufInit (scriptValue e) := by
      simp only [b, nrBeginWord, wordRest, hword, isBraced_braced, if_true, inner_braced,
        nrBraced_eq_substBraced, substBraced_eq, scriptValue, hbraces, and_self]
    rw [hb.1, hb.2, Th8.nrSubstChars]
  · rw [← (List.cons.inj hq).1] at hquote
    have hnobrace : isBraced (c :: p) = false := by simp [isBraced, hopen]
    have hnoquote : isQuoted (c :: p) = false := by simp [isQuoted, hquote]
    have hb : b.zWord = c :: p ∧ b.wordBuf = bufInit := by
      simp [b, nrBeginWord, wordRest, hword, hnobrace, hnoquote]
    rw [hb.1, hb.2, hspelled.nrSubstChars env (Nat.le_refl _)]
    simp [scriptValue, hbraces]

end Word

def WordFits (v : Bytes) : Prop := (addChars bufInit v).bFail = false

instance (v : Bytes) : Decidable (WordFits v) := inferInstanceAs (Decidable (_ = _))

theorem addChars_nTag (b : Buffer Byte) (v : Bytes) : (addChars b v).nTag = b.nTag := by
  induction v generalizing b with
  | nil => rfl
  | cons c v ih =>
    rw [addChars_cons, ih, bufAddChar, bufWrite_nTag, Tags.or_clean]

theorem addChars_zBuf {b : Buffer Byte} {v : Bytes} (h : (addChars b v).bFail = false) :
    b.bFail = false ∧ (addChars b v).zBuf = b.zBuf ++ v := by
  induction v generalizing b with
  | nil => exact ⟨h, (append_nil _).symm⟩
  | cons c v ih =>
    rw [addChars_cons] at h ⊢
    obtain ⟨hone, hrest⟩ := ih h
    refine ⟨bufWrite_bFail_mono hone, ?_⟩
    rw [hrest, bufAddChar, bufWrite_zBuf Nat.one_pos hone, append_assoc, singleton_append]

theorem setResult_addChars {v : Bytes} (h : WordFits v) :
    setResult (addChars bufInit v) = .plain v := by
  have hz : (addChars bufInit v).zBuf = v := (addChars_zBuf h).2
  have ht : (addChars bufInit v).nTag = Tags.clean := addChars_nTag _ _
  unfold setResult
  rw [hz, ht]
  rcases v <;> rfl

theorem ListWord.substWord {σ : Type} {e q : Bytes} (h : ListWord e q) (env : Env σ) (s : σ)
    (n : ℕ) : substWord env (n + 1) s q =
      if WordFits (scriptValue e) then .ok (.plain (scriptValue e), s)
      else .error (.static "out of memory") := by
  rw [Th8.substWord, h.substOutput, ok_bind]
  by_cases hfits : WordFits (scriptValue e)
  · have hok : (addChars bufInit (scriptValue e)).bFail = false := hfits
    simp [hok, hfits, setResult_addChars hfits]
  · have hbad : (addChars bufInit (scriptValue e)).bFail = true := by
      simpa [WordFits] using hfits
    simp [hbad, hfits]

/-! ## The words of a list -/

def listWords (elems : List Bytes) : List TString :=
  elems.map fun e => .plain (scriptValue e)

def tailText (elems : List Bytes) : Bytes :=
  if elems = [] then [] else chSpace :: joinElements elems

theorem atElementEnd_tailText (elems : List Bytes) : atElementEnd (tailText elems) = true := by
  unfold tailText
  split_ifs <;> rfl

theorem joinElements_atToken (elems : List Bytes) : AtToken (joinElements elems) := by
  rcases elems with _ | ⟨e, rest⟩
  · exact .nil
  · obtain ⟨c, p, -, -, -, -, htoken⟩ := (listWord_quoteElement e).head
    rw [joinElements_cons]
    exact htoken _

theorem joinElements_cons_tailText (e : Bytes) (rest : List Bytes) :
    joinElements (e :: rest) = quoteElement e ++ tailText rest := by
  rw [joinElements_cons, tailText]

theorem afterSpace_joinElements (elems : List Bytes) :
    afterSpace (joinElements elems) = joinElements elems :=
  (joinElements_atToken elems).afterSpace_eq

theorem afterSpace_tailText (elems : List Bytes) :
    afterSpace (tailText elems) = joinElements elems := by
  unfold tailText
  split_ifs with hnil
  · rw [hnil]
    rfl
  · rw [afterSpace_space rfl, afterSpace_joinElements]

theorem length_le_joinElements_length (elems : List Bytes) :
    elems.length ≤ (joinElements elems).length := by
  induction elems with
  | nil => exact Nat.le_refl _
  | cons e rest ih =>
    have hpos := length_pos_of_ne_nil (quoteElement_ne_nil e)
    rw [joinElements_cons, length_append, length_cons]
    split_ifs with hnil
    · simp only [hnil, length_nil]
      omega
    · rw [length_cons]
      omega

def AllFit (elems : List Bytes) : Prop := ∀ e ∈ elems, WordFits (scriptValue e)

instance (elems : List Bytes) : Decidable (AllFit elems) :=
  inferInstanceAs (Decidable (∀ e ∈ elems, WordFits (scriptValue e)))

theorem allFit_cons {e : Bytes} {rest : List Bytes} :
    AllFit (e :: rest) ↔ WordFits (scriptValue e) ∧ AllFit rest := by
  simp [AllFit]

theorem nrWordDone_nrBeginWord (p : CmdBuild) (zInput : Bytes) (nWord : ℕ) (wordBuf : Buffer Byte) :
    nrWordDone { nrBeginWord p zInput nWord none with zWord := [], wordBuf := wordBuf } =
      if wordBuf.bFail then .error (.static "out of memory")
      else .ok
        { args := cmdBuildAddWord p.args ⟨wordBuf.zBuf, wordBuf.nTag⟩
          zInput := zInput.drop nWord
          zWord := []
          nOrigWord := nWord
          wordBuf := bufInit
          bWordActive := false
          xExpand := none } := by
  unfold nrBeginWord nrWordDone
  simp only [Option.map_none]
  split_ifs <;> rfl

/-- The polls for `n` words, in order. -/
def polls {σ : Type} (env : Env σ) : ℕ → σ → Except Failure σ
  | 0, s => .ok s
  | n + 1, s => env.ready s >>= polls env n

theorem polls_succ {σ : Type} {env : Env σ} {n : ℕ} {s s' : σ} (h : polls env (n + 1) s = .ok s') :
    ∃ t, env.ready s = .ok t ∧ polls env n t = .ok s' :=
  bind_eq_ok.mp h

section Builders

variable {σ : Type} {env : Env σ}

theorem splitWords_list {n : ℕ} {s s' : σ} {z : Bytes} {elems : List Bytes}
    (b : ArgBuffers) (hpolls : polls env elems.length s = .ok s')
    (hz : afterSpace z = joinElements elems) (hnil : elems = [] → z = []) (hn : z.length ≤ n) :
    splitWords env n s z b =
      if AllFit elems then .ok (b.layout (listWords elems), s')
      else .error (.static "out of memory") := by
  induction elems generalizing n s z b with
  | nil =>
    cases hpolls
    rw [hnil rfl, splitWords]
    simp [AllFit, listWords, ArgBuffers.layout]
  | cons e rest ih =>
    obtain ⟨t, hready, hpolls⟩ := polls_succ hpolls
    have hword := listWord_quoteElement e
    have hpos := length_pos_of_ne_nil (quoteElement_ne_nil e)
    have hdrop : z.drop (nextSpace z) = quoteElement e ++ tailText rest := by
      rw [← joinElements_cons_tailText, ← hz, afterSpace]
    have hlen : (quoteElement e).length + (tailText rest).length ≤ z.length := by
      rw [← length_append, ← hdrop]
      exact (drop_suffix _ _).length_le
    obtain ⟨c, r, rfl⟩ : ∃ c r, z = c :: r := exists_cons_of_ne_nil (by
      rintro rfl
      simp only [length_nil] at hlen
      omega)
    obtain ⟨n, rfl⟩ := Nat.exists_eq_succ_of_ne_zero
      (Nat.ne_of_gt (Nat.lt_of_lt_of_le (Nat.succ_pos _) hn))
    have hne : ¬(quoteElement e ++ tailText rest).length = 0 := by
      rw [length_append]
      omega
    have hne' : ¬(quoteElement e).length = 0 := by omega
    have hrest := fun b => @ih n t (tailText rest) b hpolls (afterSpace_tailText rest)
      (fun h => by rw [h]; rfl) (by
        omega)
    rw [splitWords]
    simp only [hready, ok_bind, hdrop, hne, if_false, hne',
      hword.nextWord (atElementEnd_tailText rest), take_left, drop_left, splitWord,
      hword.checkExpansionPrefix, hword.substWord]
    by_cases hfits : WordFits (scriptValue e)
    · simp only [hfits, if_true, ok_bind, pure_eq_ok, hrest, allFit_cons, true_and]
      rfl
    · simp only [hfits, if_false, error_bind, allFit_cons, false_and]

/-- So does the resumable builder. -/
theorem nrSubstAndBuild_list {fuel : ℕ} {s s' : σ} {p : CmdBuild} {elems : List Bytes}
    (hpolls : polls env elems.length s = .ok s') (hactive : p.bWordActive = false)
    (hz : afterSpace p.zInput = joinElements elems)
    (hnil : elems = [] → p.zInput = []) (hfuel : 2 * elems.length < fuel) :
    (AllFit elems → ∃ q, nrSubstAndBuild env fuel s p = .ok (.built q s') ∧
        q.args = p.args.layout (listWords elems)) ∧
      (¬AllFit elems → nrSubstAndBuild env fuel s p = .error (.static "out of memory")) := by
  induction elems generalizing fuel s p with
  | nil =>
    cases hpolls
    obtain ⟨fuel, rfl⟩ := Nat.exists_eq_succ_of_ne_zero (Nat.ne_of_gt hfuel)
    rw [nrSubstAndBuild, hactive, if_neg Bool.false_ne_true, hnil rfl]
    exact ⟨fun _ => ⟨p, rfl, rfl⟩, fun hno => absurd (fun e he => by cases he) hno⟩
  | cons e rest ih =>
    obtain ⟨t, hready, hpolls⟩ := polls_succ hpolls
    have hword := listWord_quoteElement e
    have hpos := length_pos_of_ne_nil (quoteElement_ne_nil e)
    have hdrop : p.zInput.drop (nextSpace p.zInput) = quoteElement e ++ tailText rest := by
      rw [← joinElements_cons_tailText, ← hz, afterSpace]
    have hlen : (quoteElement e).length + (tailText rest).length ≤ p.zInput.length := by
      rw [← length_append, ← hdrop]
      exact (drop_suffix _ _).length_le
    obtain ⟨fuel, rfl⟩ : ∃ k, fuel = k + 2 := ⟨fuel - 2, by
      rw [length_cons] at hfuel
      omega⟩
    have hne : ¬(quoteElement e ++ tailText rest).length = 0 := by
      rw [length_append]
      omega
    have hne' : ¬(quoteElement e).length = 0 := by omega
    have hne'' : ¬p.zInput.length = 0 := by omega
    have hstart : nrStartWord env s p = .ok (some (nrBeginWord p
        (quoteElement e ++ tailText rest) (quoteElement e).length none), t) := by
      rw [nrStartWord]
      simp only [hready, ok_bind, hdrop, hne, if_false, hne',
        hword.nextWord (atElementEnd_tailText rest), take_left,
        hword.checkExpansionPrefix, pure_eq_ok]
    have htake : (quoteElement e ++ tailText rest).take (quoteElement e).length =
        quoteElement e := take_left
    have hchars := hword.nrSubstChars env t p htake
    rw [nrSubstAndBuild, hactive, if_neg Bool.false_ne_true, if_neg hne'', hstart, ok_bind]
    simp only
    rw [nrSubstAndBuild_active (nrBeginWord_bWordActive _ _ _ _)
      (r := .ok (addChars bufInit (scriptValue e), t)) hchars]
    rw [ok_bind]
    simp only
    by_cases hfits : WordFits (scriptValue e)
    · have hbytes : (addChars bufInit (scriptValue e)).zBuf = scriptValue e :=
        (addChars_zBuf hfits).2
      have htags : (addChars bufInit (scriptValue e)).nTag = Tags.clean := addChars_nTag _ _
      have hok : (addChars bufInit (scriptValue e)).bFail = false := hfits
      rw [nrWordDone_nrBeginWord, hok, if_neg Bool.false_ne_true, ok_bind, hbytes, htags, drop_left]
      have hnext := @ih fuel t
        { args := cmdBuildAddWord p.args (.plain (scriptValue e))
          zInput := tailText rest
          zWord := []
          nOrigWord := (quoteElement e).length
          wordBuf := bufInit
          bWordActive := false
          xExpand := none } hpolls rfl (afterSpace_tailText rest) (fun h => by rw [h]; rfl) (by
          rw [length_cons] at hfuel
          omega)
      rw [allFit_cons, and_iff_right hfits]
      exact hnext
    · have hbad : (addChars bufInit (scriptValue e)).bFail = true := by
        simpa [WordFits] using hfits
      rw [nrWordDone_nrBeginWord, hbad, if_pos rfl, error_bind, allFit_cons]
      exact ⟨fun h => absurd h.1 hfits, fun _ => rfl⟩

end Builders

/-! ## The command of a list -/

theorem not_commandEnd_joinElements (e : Bytes) (rest : List Bytes) :
    ¬CommandEnd (joinElements (e :: rest)) ∧ ¬CommandEnd (chSpace :: joinElements (e :: rest)) := by
  have hne : joinElements (e :: rest) ≠ [] := by simp [joinElements_eq_nil]
  have hline := (joinElements_atToken (e :: rest)).not_endOfLine hne
  have hsemi : (joinElements (e :: rest)).head? ≠ some chSemicolon := by
    obtain ⟨c, p, hq, -, hsemi, -⟩ := (listWord_quoteElement e).head
    rw [joinElements_cons, hq]
    simpa using hsemi
  constructor
  · simp [CommandEnd, hne, hsemi, hline]
  · have hspace : isSpace chSpace = true := rfl
    have hblank : endOfLine (chSpace :: joinElements (e :: rest)) = false := by
      rw [endOfLine, if_neg (by decide), if_pos hspace, hline]
    simp [CommandEnd, hblank, (by decide : chSpace ≠ chSemicolon)]

theorem scanCommand_tailText (elems : List Bytes) : scanCommand (tailText elems) = .ok [] := by
  induction elems with
  | nil => exact scanCommand_stop (.inl rfl)
  | cons e rest ih =>
    have htail : tailText (e :: rest) = chSpace :: joinElements (e :: rest) :=
      if_neg (cons_ne_nil _ _)
    have hspace : afterSpace (tailText (e :: rest)) = quoteElement e ++ tailText rest := by
      rw [afterSpace_tailText, joinElements_cons_tailText]
    have hword := (listWord_quoteElement e).nextWord (atElementEnd_tailText rest) true
    rw [← hspace] at hword
    have hend : ¬CommandEnd (tailText (e :: rest)) := by
      rw [htail]
      exact (not_commandEnd_joinElements e rest).2
    rw [scanCommand_word hend hword, hspace, drop_left, ih]

theorem scanCommand_joinElements (e : Bytes) (rest : List Bytes) :
    scanCommand (joinElements (e :: rest)) = .ok [] := by
  have hspace : afterSpace (joinElements (e :: rest)) = quoteElement e ++ tailText rest := by
    rw [afterSpace_joinElements, joinElements_cons_tailText]
  have hword := (listWord_quoteElement e).nextWord (atElementEnd_tailText rest) true
  rw [← hspace] at hword
  rw [scanCommand_word (not_commandEnd_joinElements e rest).1 hword, hspace, drop_left,
    scanCommand_tailText]

theorem skipToCommand_joinElements (e : Bytes) (rest : List Bytes) :
    skipToCommand (joinElements (e :: rest)) = joinElements (e :: rest) := by
  have hspace := afterSpace_joinElements (e :: rest)
  obtain ⟨c, p, hq, hhash, hsemi, -⟩ := (listWord_quoteElement e).head
  obtain ⟨z, hz⟩ : ∃ z, joinElements (e :: rest) = c :: z := ⟨_, by rw [joinElements_cons, hq]; rfl⟩
  rw [hz] at hspace ⊢
  have hskip : skipSemicolon (c :: z) = c :: z := by simp [skipSemicolon, hsemi]
  exact skipToCommand_command (by rw [hskip, hspace]) hhash

section Iteration

variable {σ κ : Type} {env : Interp σ κ}

theorem evalIteration_joinElements {m : Machine σ κ} {pState : EvalState}
    {elems : List Bytes} {host : σ} (hne : elems ≠ []) (hrc : m.rc = .ok)
    (hinput : pState.zInput = joinElements elems)
    (hpolls : polls env.words elems.length m.host = .ok host) :
    (AllFit elems → Fits (listWords elems) →
      evalIteration env m pState =
        dispatchCommand env { m with host := host }
          { pState with zFirst := joinElements elems, zInput := [] } (listWords elems)) ∧
    (¬(AllFit elems ∧ Fits (listWords elems)) →
      (evalIteration env m pState).dispatched = m.dispatched) := by
  obtain ⟨e, rest, rfl⟩ := exists_cons_of_ne_nil hne
  have hjoin : joinElements (e :: rest) ≠ [] := by simp [joinElements_eq_nil]
  rw [evalIteration, if_neg (not_not.mpr hrc), hinput, skipToCommand_joinElements]
  simp only [hjoin, if_false, scanCommand_joinElements, length_nil, Nat.sub_zero, take_length]
  by_cases hbracket : chOpenBracket ∈ joinElements (e :: rest)
  · -- the resumable builder
    have hrounds : 2 * (e :: rest).length < (CmdBuild.init (joinElements (e :: rest))).rounds := by
      have hle := length_le_joinElements_length (e :: rest)
      change _ < 2 * (joinElements (e :: rest)).length + 2
      omega
    obtain ⟨hbuilt, hfailed⟩ := nrSubstAndBuild_list
      (p := CmdBuild.init (joinElements (e :: rest))) hpolls rfl
      (afterSpace_joinElements _) (fun h => absurd h hne) hrounds
    simp only [hbracket, if_true, continueBuild]
    by_cases hall : AllFit (e :: rest)
    · obtain ⟨q, hq, hargs⟩ := hbuilt hall
      rw [hq]
      simp only [hargs, CmdBuild.init, argv_layout]
      by_cases hfits : Fits (listWords (e :: rest))
      · simp [hfits, hall]
      · simp [hfits]
    · rw [hfailed hall]
      simp only [hall, false_and, buildFailed_dispatched]
      simp
  · -- the synchronous builder
    simp only [hbracket, if_false, splitCommand]
    rw [splitWords_list ArgBuffers.init hpolls (afterSpace_joinElements _)
      (fun h => absurd h hne) (Nat.le_refl _)]
    by_cases hall : AllFit (e :: rest)
    · rw [if_pos hall, ok_bind]
      simp only [argv_layout]
      by_cases hfits : Fits (listWords (e :: rest))
      · simp [hfits, hall, ok_bind, pure_eq_ok]
      · simp [hfits, error_bind, buildFailed_dispatched]
    · rw [if_neg hall, error_bind]
      simp [hall, buildFailed_dispatched]

end Iteration

/-! ## Evaluating the text of a list -/

/-- Evaluated as a script, the text is one command of these words: they are dispatched
when of the host's state only the polls have been seen, and no command is behind it. -/
def DispatchesOnce (z : Bytes) (words : List TString) : Prop :=
  ∀ (σ κ : Type) (env : Interp σ κ) (m : Machine σ κ) (pState : EvalState) (host : σ),
    m.rc = .ok → pState.zInput = z → polls env.words words.length m.host = .ok host →
    evalIteration env m pState = dispatchCommand env { m with host := host }
        { pState with zFirst := z, zInput := [] } words ∧
      ∀ m' : Machine σ κ, m'.rc = .ok →
        evalIteration env m' { pState with zFirst := z, zInput := [] } = m'

def WordsGranted (elems : List Bytes) : Prop :=
  (∀ e ∈ elems, WordFits e) ∧ Fits (elems.map .plain)

instance (elems : List Bytes) : Decidable (WordsGranted elems) :=
  inferInstanceAs (Decidable (_ ∧ _))

theorem evalIteration_empty {σ κ : Type} (env : Interp σ κ) {m : Machine σ κ}
    {pState : EvalState} (hrc : m.rc = .ok) (hempty : pState.zInput = []) :
    evalIteration env m pState = m := by
  have hskip : skipToCommand ([] : Bytes) = [] := by decide
  rw [evalIteration, if_neg (not_not.mpr hrc), hempty, hskip]
  simp [← hrc]

def everyCommand : Interp Unit Empty :=
  { oneCommand with command := fun _ _ => some 0 }

def atTopLevel : Machine Unit Empty where
  host := ()
  pCallbacks := []
  rc := .ok
  result := .ok (TString.plain [])
  nEvalDepth := 1
  pFrame := [⟨0, []⟩]
  pDownlevelFrame := none
  pCurrentNs := []
  bInUnknown := false
  dispatched := []

def atScript (z : Bytes) : EvalState where
  zProgram := z
  zInput := z
  zFirst := []
  zName := none
  trusted := false

theorem polls_everyCommand (n : ℕ) : polls everyCommand.words n () = .ok () := by
  induction n with
  | zero => rfl
  | succ n ih => exact ih

theorem findCommand_everyCommand (m : Machine Unit Empty) (zName : Bytes) :
    findCommand everyCommand m zName = some 0 := by
  unfold findCommand
  rcases splitQualName zName with ⟨_ | zNs, zTail⟩ <;> rfl

theorem dispatchCommand_everyCommand (pState : EvalState) (v : Bytes) (vs : List Bytes) :
    (dispatchCommand everyCommand atTopLevel pState ((v :: vs).map .plain)).dispatched =
      [⟨(v :: vs).map .plain, false⟩] := by
  rw [map_cons, dispatchCommand]
  simp only [reportTaint_eq_none.mpr (rfl : (TString.plain v).tags.taint = false),
    findCommand_everyCommand]
  rfl

theorem plain_injective : Function.Injective TString.plain :=
  fun _ _ h => congrArg TString.bytes h

theorem listWords_eq_iff (elems : List Bytes) :
    listWords elems = elems.map .plain ↔ ∀ e ∈ elems, ¬LosesNewline e := by
  unfold listWords
  rw [map_inj_left]
  refine forall₂_congr fun e _ => ?_
  rw [plain_injective.eq_iff, scriptValue_eq_self_iff]

theorem dispatchesOnce_joinElements {elems : List Bytes} (hne : elems ≠ [])
    (hwords : WordsGranted elems) (hsafe : ∀ e ∈ elems, ¬LosesNewline e) :
    DispatchesOnce (joinElements elems) (elems.map .plain) := by
  intro σ κ env m pState host hrc hinput hpolls
  rw [length_map] at hpolls
  have hlist := (listWords_eq_iff elems).mpr hsafe
  have hall : AllFit elems := by
    intro e he
    rw [(scriptValue_eq_self_iff e).mpr (hsafe e he)]
    exact hwords.1 e he
  have hround := (evalIteration_joinElements hne hrc hinput hpolls).1 hall
  rw [hlist] at hround
  exact ⟨hround hwords.2, fun m' hrc' => evalIteration_empty env hrc' rfl⟩

/-- The list text is one command of its elements exactly where no element is written in
braces with a newline behind a backslash. -/
theorem listText_dispatchesOnce_iff {nResultLimit : ℕ} {elems : List Bytes}
    {zList : TString} (hne : elems ≠ [])
    (hbuilt : listText nResultLimit (elems.map .plain) = .ok zList)
    (hquote : ∀ e ∈ elems, QuotingGranted e) (hwords : WordsGranted elems) :
    DispatchesOnce zList.bytes (elems.map .plain) ↔ ∀ e ∈ elems, ¬LosesNewline e := by
  have hne' : elems.map TString.plain ≠ [] := by simpa using hne
  have hquote' : ∀ x ∈ elems.map TString.plain, QuotingGranted x.bytes := by
    intro x hx
    obtain ⟨e, he, rfl⟩ := mem_map.mp hx
    exact hquote e he
  obtain ⟨-, rfl⟩ := (listText_eq_ok hne' hquote').mp hbuilt
  have hbytes : (elems.map TString.plain).map TString.bytes = elems := by
    rw [map_map]
    exact map_id elems
  have htext : (joinedText (elems.map TString.plain)).bytes = joinElements elems := by
    rw [joinedText, hbytes]
  rw [htext]
  refine ⟨fun honce => ?_, dispatchesOnce_joinElements hne hwords⟩
  have hpolls := polls_everyCommand elems.length
  have hpolls' := polls_everyCommand (elems.map TString.plain).length
  have hround := (honce Unit Empty everyCommand atTopLevel (atScript (joinElements elems)) ()
    rfl rfl hpolls').1
  have hinput : (atScript (joinElements elems)).zInput = joinElements elems := rfl
  have hlist := evalIteration_joinElements (m := atTopLevel) hne rfl hinput hpolls
  obtain ⟨v, vs, rfl⟩ := exists_cons_of_ne_nil hne
  have hseen := congrArg Machine.dispatched hround
  rw [dispatchCommand_everyCommand] at hseen
  by_cases hfits : AllFit (v :: vs) ∧ Fits (listWords (v :: vs))
  · rw [hlist.1 hfits.1 hfits.2] at hseen
    have hmap : listWords (v :: vs) = ((v :: vs).map scriptValue).map TString.plain := by
      rw [listWords, map_map]
      rfl
    rw [hmap, map_cons, dispatchCommand_everyCommand] at hseen
    rw [← listWords_eq_iff, hmap]
    simpa using hseen
  · rw [hlist.2 hfits] at hseen
    cases hseen

def specialElements : List Bytes :=
  [ascii "$x", ascii "[exit]", ascii "#", [], ascii "a;b", [chOpenBrace, 42, chCloseBrace],
    [chOpenBrace], [chBackslash]]

theorem listText_dispatchesOnce_special :
    DispatchesOnce (joinElements specialElements) (specialElements.map .plain) := by
  have hbuilt : listText 0 (specialElements.map .plain) =
      .ok (joinedText (specialElements.map .plain)) := by
    decide
  exact (listText_dispatchesOnce_iff (by decide) hbuilt (by decide) (by decide)).mpr
    (by decide)

/-- Two backslashes and a newline come back as a backslash and a space. -/
theorem listText_dispatches_other :
    ∃ zList, listText 0 [.plain [chBackslash, chBackslash, chNewline]] = .ok zList ∧
      WordsGranted [[chBackslash, chBackslash, chNewline]] ∧
      ¬DispatchesOnce zList.bytes [.plain [chBackslash, chBackslash, chNewline]] := by
  refine ⟨joinedText [.plain [chBackslash, chBackslash, chNewline]], by decide,
    by decide, fun honce => ?_⟩
  have hround := (honce Unit Empty everyCommand atTopLevel
    (atScript [chOpenBrace, chBackslash, chBackslash, chNewline, chCloseBrace]) () rfl
    (by decide) rfl).1
  have hseen := congrArg Machine.dispatched hround
  revert hseen
  decide

end Th8
