import Th8.Eval.WordBuilder
import Th8.Support.Scanner

/-!
# Splitting a script into commands

`th8EvalIteration` skips separators and comments, scans to the end of the next
command, hands that slice of the text to a word builder and dispatches the words.
A newline is meant to end the command.  The white-space helper, however, reads
newlines as white space, and the scan loop calls it as soon as a backslash-newline
keeps the line from counting as ended.
-/

namespace Th8

open Support List

/-! ## White space -/

theorem isSpace_ne_backslash {c : Byte} (h : isSpace c = true) : (c == chBackslash) = false := by
  rw [beq_eq_false_iff_ne]
  rintro rfl
  exact absurd h (by decide)

theorem isSpace_of_blank {c : Byte} (h : (c == chSpace || c == chTab) = true) :
    isSpace c = true := by
  simp only [Bool.or_eq_true, beq_iff_eq] at h
  rcases h with rfl | rfl <;> decide

theorem nextSpaceFrom_flag (f : Bool) (z : Bytes) : nextSpaceFrom f z = nextSpaceFrom false z := by
  induction z generalizing f with
  | nil => simp [nextSpaceFrom]
  | cons c rest ih =>
    rw [nextSpaceFrom.eq_def, nextSpaceFrom.eq_def false]
    by_cases hblank : (c == chSpace || c == chTab) = true
    · have hspace := isSpace_of_blank hblank
      simp only [hblank, hspace, isSpace_ne_backslash hspace, Bool.and_true,
        Bool.false_eq_true, if_false, if_true, ih true]
      split <;> rfl
    · simp [hblank]

def afterSpace (z : Bytes) : Bytes := z.drop (nextSpace z)

@[simp] theorem afterSpace_nil : afterSpace [] = [] := rfl

theorem afterSpace_length_le (z : Bytes) : (afterSpace z).length ≤ z.length := by
  simp [afterSpace]

theorem nextSpace_space {c : Byte} (h : isSpace c = true) (rest : Bytes) :
    nextSpace (c :: rest) = nextSpace rest + 1 := by
  rw [nextSpace, nextSpaceFrom.eq_def]
  simp [isSpace_ne_backslash h, h, nextSpace]

theorem nextSpace_continuation (rest : Bytes) :
    nextSpace (chBackslash :: chNewline :: rest) = nextSpace rest + 2 := by
  rw [nextSpace, nextSpaceFrom.eq_def]
  simp [nextSpaceFrom_flag true, nextSpace]

theorem afterSpace_space {c : Byte} (h : isSpace c = true) (rest : Bytes) :
    afterSpace (c :: rest) = afterSpace rest := by
  simp [afterSpace, nextSpace_space h]

@[simp] theorem afterSpace_continuation (rest : Bytes) :
    afterSpace (chBackslash :: chNewline :: rest) = afterSpace rest := by
  simp [afterSpace, nextSpace_continuation]

inductive AtToken : Bytes → Prop where
  | nil : AtToken []
  | byte {c : Byte} {rest : Bytes} (hspace : isSpace c = false)
      (hback : c ≠ chBackslash) : AtToken (c :: rest)
  | lone : AtToken [chBackslash]
  | escape {d : Byte} {rest : Bytes} (hd : d ≠ chNewline) : AtToken (chBackslash :: d :: rest)

theorem AtToken.nextSpace_eq {z : Bytes} (h : AtToken z) : nextSpace z = 0 := by
  rw [nextSpace, nextSpaceFrom.eq_def]
  cases h with
  | nil => rfl
  | byte hspace hback => simp [hspace, hback]
  | lone => simp
  | escape hd => simp [hd]

theorem AtToken.afterSpace_eq {z : Bytes} (h : AtToken z) : afterSpace z = z := by
  simp [afterSpace, h.nextSpace_eq]

theorem space_cases {motive : Bytes → Prop} (token : ∀ z, AtToken z → motive z)
    (space : ∀ c rest, isSpace c = true → motive rest → motive (c :: rest))
    (continuation : ∀ rest, motive rest →
      motive (chBackslash :: chNewline :: rest)) (z : Bytes) : motive z := by
  induction hn : z.length using Nat.strongRecOn generalizing z with
  | ind n ih =>
    match z with
    | [] => exact token _ .nil
    | c :: rest =>
      by_cases hspace : isSpace c = true
      · exact space c rest hspace (ih _ (by simp [← hn]) rest rfl)
      by_cases hback : c = chBackslash
      · subst hback
        match rest with
        | [] => exact token _ .lone
        | d :: rest =>
          by_cases hd : d = chNewline
          · subst hd
            have hlt : rest.length < n := by
              simp only [length_cons] at hn
              omega
            exact continuation rest (ih _ hlt rest rfl)
          · exact token _ (.escape hd)
      · exact token _ (.byte (by simpa using hspace) hback)

theorem nextSpace_le (z : Bytes) : nextSpace z ≤ z.length := by
  induction z using space_cases with
  | token z h => simp [h.nextSpace_eq]
  | space c rest h ih => simpa [nextSpace_space h] using ih
  | continuation rest ih => simpa [nextSpace_continuation] using ih

theorem afterSpace_atToken (z : Bytes) : AtToken (afterSpace z) := by
  induction z using space_cases with
  | token z h => rwa [h.afterSpace_eq]
  | space c rest h ih => rwa [afterSpace_space h]
  | continuation rest ih => rwa [afterSpace_continuation]

def evenTail : Bytes → Bool
  | [] => true
  | c :: rest =>
    if c == chBackslash then
      match rest with
      | [] => false
      | _ :: rest' => evenTail rest'
    else evenTail rest

theorem evenTail_cons {c : Byte} (h : c ≠ chBackslash) (rest : Bytes) :
    evenTail (c :: rest) = evenTail rest := by
  rw [evenTail.eq_def]
  simp [h]

theorem evenTail_escape (d : Byte) (rest : Bytes) :
    evenTail (chBackslash :: d :: rest) = evenTail rest := by
  rw [evenTail.eq_def]
  simp

theorem evenTail_lone : evenTail [chBackslash] = false := rfl

theorem evenTail_afterSpace {z : Bytes} (h : evenTail z = true) :
    evenTail (afterSpace z) = true := by
  induction z using space_cases with
  | token z hz => rwa [hz.afterSpace_eq]
  | space c rest hc ih =>
    rw [evenTail_cons (by simpa using isSpace_ne_backslash hc)] at h
    rw [afterSpace_space hc]
    exact ih h
  | continuation rest ih =>
    rw [evenTail_escape] at h
    rw [afterSpace_continuation]
    exact ih h

theorem evenTail_append (p : Bytes) {c : Byte} (hc : c ≠ chBackslash) (rest : Bytes) :
    evenTail (p ++ c :: rest) = evenTail (c :: rest) := by
  fun_induction evenTail p with
  | case1 => rfl
  | case2 b hb =>
    simp only [beq_iff_eq] at hb
    subst hb
    rw [singleton_append, evenTail_escape, evenTail_cons hc]
  | case3 b hb d p ih =>
    simp only [beq_iff_eq] at hb
    subst hb
    rw [cons_append, cons_append, evenTail_escape, ih]
  | case4 b p hb ih =>
    rw [cons_append, evenTail_cons (by simpa using hb), ih]

/-! ## Cutting at a newline -/

theorem isSpace_newline : isSpace chNewline = true := by decide

theorem endOfLine_append_newline (z B : Bytes) : endOfLine (z ++ chNewline :: B) = endOfLine z := by
  induction z with
  | nil => simp [endOfLine]
  | cons c rest ih => simp [endOfLine, ih]

theorem afterSpace_append_newline {z : Bytes} (h : evenTail z = true) (B : Bytes) :
    afterSpace (z ++ chNewline :: B) =
      if afterSpace z = [] then afterSpace B else afterSpace z ++ chNewline :: B := by
  induction z using space_cases with
  | token z hz =>
    rw [hz.afterSpace_eq]
    cases hz with
    | nil => simp [afterSpace_space isSpace_newline]
    | byte hspace hback => simpa using (AtToken.byte hspace hback).afterSpace_eq
    | lone => simp [evenTail_lone] at h
    | escape hd => simpa using (AtToken.escape hd).afterSpace_eq
  | space c rest hc ih =>
    rw [evenTail_cons (by simpa using isSpace_ne_backslash hc)] at h
    rw [cons_append, afterSpace_space hc, afterSpace_space hc, ih h]
  | continuation rest ih =>
    rw [evenTail_escape] at h
    rw [cons_append, cons_append, afterSpace_continuation, afterSpace_continuation, ih h]

theorem nextWordFrom_append_newline {isCmd : Bool} {stack : List Scope} {z : Bytes}
    {n : ℕ} (heven : evenTail z = true)
    (h : nextWordFrom isCmd stack z = ([], n)) (B : Bytes) :
    nextWordFrom isCmd stack (z ++ chNewline :: B) = ([], n) := by
  fun_induction nextWordFrom isCmd stack z generalizing n with
  | case1 stack =>
    simp only [Prod.mk.injEq] at h
    rw [h.1, ← h.2, nil_append, nextWordFrom.eq_def]
    simp [isSpace_newline]
  | case2 c rest hspace =>
    rw [cons_append, nextWordFrom.eq_def]
    simpa [hspace] using h
  | case3 c rest hspace hsemi =>
    rw [cons_append, nextWordFrom.eq_def]
    simpa [hspace, hsemi] using h
  | case4 c hspace hsemi hback =>
    simp only [beq_iff_eq] at hback
    subst hback
    simp [evenTail_lone] at heven
  | case5 c hspace hsemi hback d rest hd =>
    rw [cons_append, cons_append, nextWordFrom.eq_def]
    simpa [hspace, hsemi, hback, hd] using h
  | case6 c hspace hsemi hback d rest hd ih =>
    simp only [beq_iff_eq] at hback
    subst hback
    rw [evenTail_escape] at heven
    simp only [advance, Prod.mk.injEq] at h
    have hr := ih heven (Prod.ext h.1 rfl)
    rw [cons_append, cons_append, nextWordFrom.eq_def]
    simp [hspace, hsemi, hd, hr, advance]
    exact h.2
  | case7 c rest hspace hsemi hback ih =>
    rw [evenTail_cons (by simpa using hback)] at heven
    simp only [advance, Prod.mk.injEq] at h
    have hr := ih heven (Prod.ext h.1 rfl)
    rw [cons_append, nextWordFrom.eq_def]
    simp [hspace, hsemi, hback, hr, advance]
    exact h.2
  | case8 scope below c hback => simp at h
  | case9 scope below c hback d rest ih =>
    simp only [beq_iff_eq] at hback
    subst hback
    rw [evenTail_escape] at heven
    simp only [advance, Prod.mk.injEq] at h
    have hr := ih heven (Prod.ext h.1 rfl)
    rw [cons_append, cons_append, nextWordFrom.eq_def]
    simp [hr, advance]
    exact h.2
  | case10 scope below c rest hback ih =>
    rw [evenTail_cons (by simpa using hback)] at heven
    simp only [advance, Prod.mk.injEq] at h
    have hr := ih heven (Prod.ext h.1 rfl)
    rw [cons_append, nextWordFrom.eq_def]
    simp [hback, hr, advance]
    exact h.2

theorem nextWordFrom_length_le (isCmd : Bool) (stack : List Scope) (z : Bytes) :
    (nextWordFrom isCmd stack z).2 ≤ z.length := by
  fun_induction nextWordFrom isCmd stack z with
  | case1 => simp
  | case2 => simp
  | case3 => simp
  | case4 => simp
  | case5 => simp
  | case6 c hspace hsemi hback d rest hd ih => simpa [advance] using ih
  | case7 c rest hspace hsemi hback ih => simpa [advance] using ih
  | case8 => simp
  | case9 scope below c hback d rest ih => simpa [advance] using ih
  | case10 scope below c rest hback ih => simpa [advance] using ih

theorem evenTail_drop_nextWordFrom {isCmd : Bool} {stack : List Scope} {z : Bytes}
    (heven : evenTail z = true) :
    evenTail (z.drop (nextWordFrom isCmd stack z).2) = true := by
  fun_induction nextWordFrom isCmd stack z with
  | case1 => simpa using heven
  | case2 => simpa using heven
  | case3 => simpa using heven
  | case4 => simp [evenTail]
  | case5 => simpa using heven
  | case6 c hspace hsemi hback d rest hd ih =>
    simp only [beq_iff_eq] at hback
    subst hback
    rw [evenTail_escape] at heven
    simpa [advance] using ih heven
  | case7 c rest hspace hsemi hback ih =>
    rw [evenTail_cons (by simpa using hback)] at heven
    simpa [advance] using ih heven
  | case8 => simp [evenTail]
  | case9 scope below c hback d rest ih =>
    simp only [beq_iff_eq] at hback
    subst hback
    rw [evenTail_escape] at heven
    simpa [advance] using ih heven
  | case10 scope below c rest hback ih =>
    rw [evenTail_cons (by simpa using hback)] at heven
    simpa [advance] using ih heven

/-! ### Whole words -/

theorem nextWord_eq_ok {z : Bytes} {isCmd : Bool} {n : ℕ} :
    nextWord z isCmd = .ok n ↔ nextWordScan isCmd z = ([], n) := by
  unfold nextWord
  rcases nextWordScan isCmd z with ⟨_ | ⟨inner, below⟩, m⟩
  · simp
  · simp

def opensWord (c : Byte) : Bool := c == chQuote || c == chOpenBrace

theorem nextWordScan_cons (isCmd : Bool) (c : Byte) (rest : Bytes) :
    nextWordScan isCmd (c :: rest) =
      if opensWord c then advance 1 (nextWordFrom isCmd (Scope.opened c) rest)
      else nextWordFrom isCmd [] (c :: rest) := rfl

theorem opensWord_ne_backslash {c : Byte} (h : opensWord c = true) : c ≠ chBackslash := by
  rintro rfl
  exact absurd h (by decide)

theorem nextWord_append_newline {z : Bytes} {isCmd : Bool} {n : ℕ}
    (heven : evenTail z = true) (h : nextWord z isCmd = .ok n) (B : Bytes) :
    nextWord (z ++ chNewline :: B) isCmd = .ok n := by
  rw [nextWord_eq_ok] at h ⊢
  cases z with
  | nil =>
    have hn : n = 0 := by simpa [nextWordScan] using h.symm
    subst hn
    rw [nil_append, nextWordScan_cons, if_neg (by decide), nextWordFrom.eq_def]
    simp [isSpace_newline]
  | cons c rest =>
    rw [cons_append, nextWordScan_cons] at *
    split_ifs at h ⊢ with hopen
    · rw [evenTail_cons (opensWord_ne_backslash hopen)] at heven
      simp only [advance, Prod.mk.injEq] at h
      have hrest := nextWordFrom_append_newline heven (Prod.ext h.1 rfl) B
      simp [hrest, advance, h.2]
    · exact nextWordFrom_append_newline heven h B

theorem nextWord_le {z : Bytes} {isCmd : Bool} {n : ℕ} (h : nextWord z isCmd = .ok n) :
    n ≤ z.length := by
  rw [nextWord_eq_ok] at h
  cases z with
  | nil => simpa [nextWordScan] using h.symm
  | cons c rest =>
    rw [nextWordScan_cons] at h
    split_ifs at h
    · simp only [advance, Prod.mk.injEq] at h
      have hle := nextWordFrom_length_le isCmd (Scope.opened c) rest
      simp only [length_cons]
      omega
    · have hle := nextWordFrom_length_le isCmd [] (c :: rest)
      rw [h] at hle
      exact hle

theorem evenTail_drop_nextWord {z : Bytes} {isCmd : Bool} {n : ℕ}
    (heven : evenTail z = true) (h : nextWord z isCmd = .ok n) :
    evenTail (z.drop n) = true := by
  rw [nextWord_eq_ok] at h
  cases z with
  | nil => simp [evenTail]
  | cons c rest =>
    rw [nextWordScan_cons] at h
    split_ifs at h with hopen
    · rw [evenTail_cons (opensWord_ne_backslash hopen)] at heven
      simp only [advance, Prod.mk.injEq] at h
      rw [← h.2, drop_succ_cons]
      exact evenTail_drop_nextWordFrom heven
    · have hdrop := @evenTail_drop_nextWordFrom isCmd [] (c :: rest) heven
      rwa [h] at hdrop

theorem nextWord_pos {z : Bytes} {isCmd : Bool} {n : ℕ} (htoken : AtToken z)
    (hne : z ≠ []) (hsemi : isCmd = true → z.head? ≠ some chSemicolon)
    (h : nextWord z isCmd = .ok n) : 0 < n := by
  rw [nextWord_eq_ok] at h
  cases z with
  | nil => exact absurd rfl hne
  | cons c rest =>
    rw [nextWordScan_cons] at h
    split_ifs at h with hopen
    · simp only [advance, Prod.mk.injEq] at h
      omega
    · have hnot : (isCmd && c == chSemicolon) = false := by
        cases isCmd with
        | false => rfl
        | true => simpa using hsemi rfl
      rw [nextWordFrom.eq_def] at h
      cases htoken with
      | byte hspace hback =>
        simp only [hspace, hnot, hback, beq_iff_eq, if_false, advance,
          Bool.false_eq_true, Prod.mk.injEq] at h
        omega
      | lone =>
        simp [(by decide : isSpace chBackslash = false), hnot] at h
        omega
      | escape hd =>
        simp [(by decide : isSpace chBackslash = false), hnot, hd, advance] at h
        omega

/-- The word loop of the builders, with the words themselves as output. -/
def wordScanner : Scanner Bytes Bytes (Option Failure) where
  step := fun zInput =>
    let z := afterSpace zInput
    if z = [] then ([], .inr none)
    else
      match nextWord z false with
      | .error e => ([], .inr (some e))
      | .ok nWord =>
        if nWord = 0 then ([], .inr none)
        else ([z.take nWord], .inl (z.drop nWord))
  measure := List.length
  decreases := by
    intro z out z' h
    have hle := afterSpace_length_le z
    dsimp only at h
    split at h
    · cases h
    · rename_i hne
      split at h
      · cases h
      · split at h
        · cases h
        · cases h
          have hpos := length_pos_of_ne_nil hne
          rw [length_drop]
          omega

def rawWords (zCmd : Bytes) : Except Failure (List Bytes) :=
  match wordScanner.run zCmd with
  | (ws, none) => .ok ws
  | (_, some e) => .error e

/-! ## The evaluation loop -/

/-- The comment loop of `th8EvalIteration`. -/
def skipComment : Bytes → Bytes
  | [] => []
  | c :: rest => if endOfLine (c :: rest) then c :: rest else skipComment rest

theorem skipComment_length_le (z : Bytes) : (skipComment z).length ≤ z.length := by
  induction z with
  | nil => simp [skipComment]
  | cons c rest ih =>
    rw [skipComment]
    split
    · simp
    · simp only [length_cons]
      omega

theorem skipComment_hash (rest : Bytes) : skipComment (chHash :: rest) = skipComment rest := by
  rw [skipComment, if_neg]
  simp [endOfLine, (by decide : isSpace chHash = false), (by decide : chHash ≠ chNewline)]

def skipSemicolon : Bytes → Bytes
  | [] => []
  | c :: rest => if c == chSemicolon then rest else c :: rest

theorem skipSemicolon_length_le (z : Bytes) : (skipSemicolon z).length ≤ z.length := by
  cases z with
  | nil => simp [skipSemicolon]
  | cons c rest =>
    rw [skipSemicolon]
    split <;> simp

theorem skipComment_length_lt {z rest : Bytes} {c : Byte}
    (h : afterSpace (skipSemicolon z) = c :: rest) : (skipComment rest).length < z.length := by
  have hle := Nat.le_trans (afterSpace_length_le (skipSemicolon z)) (skipSemicolon_length_le z)
  rw [h, length_cons] at hle
  have hcomment := skipComment_length_le rest
  omega

/-- The skip loop of `th8EvalIteration`: separators, white space and comments up
to a command or the end of the script. -/
def skipScanner : Scanner Bytes Empty Bytes where
  step := fun zInput =>
    let z := afterSpace (skipSemicolon zInput)
    match z with
    | [] => ([], .inr [])
    | c :: rest =>
      if c == chHash then ([], .inl (skipComment z)) else ([], .inr z)
  measure := List.length
  decreases := by
    intro z out z' h
    dsimp only at h
    split at h
    · cases h
    · rename_i c rest heq
      split at h
      · rename_i hhash
        simp only [beq_iff_eq] at hhash
        subst hhash
        rw [heq, skipComment_hash] at h
        cases h
        exact skipComment_length_lt heq
      · cases h

def skipToCommand (z : Bytes) : Bytes := (skipScanner.run z).2

/-- The scan loop of `th8EvalIteration`: what is left of the script after the
command at its head. -/
def commandScanner : Scanner Bytes Empty (Except Failure Bytes) where
  step := fun zInput =>
    if zInput = [] ∨ zInput.head? = some chSemicolon ∨ endOfLine zInput = true then
      ([], .inr (.ok zInput))
    else
      match nextWord (afterSpace zInput) true with
      | .error e => ([], .inr (.error e))
      | .ok nWord => ([], .inl ((afterSpace zInput).drop nWord))
  measure := List.length
  decreases := by
    intro z out z' h
    have hle := afterSpace_length_le z
    split at h
    · cases h
    · rename_i hgo
      simp only [not_or] at hgo
      split at h
      · cases h
      · rename_i nWord hword
        cases h
        rw [length_drop]
        by_cases hempty : afterSpace z = []
        · have hpos := length_pos_of_ne_nil hgo.1
          simpa [hempty] using hpos
        · have hlen := length_pos_of_ne_nil hempty
          by_cases hsame : afterSpace z = z
          · have hpos := nextWord_pos (afterSpace_atToken z) hempty
              (fun _ => by rw [hsame]; exact hgo.2.1) hword
            omega
          · have hlt : (afterSpace z).length < z.length := by
              refine Nat.lt_of_le_of_ne hle fun heq => hsame ?_
              have hzero : nextSpace z = 0 := by
                rw [afterSpace, length_drop] at heq
                have := length_pos_of_ne_nil hgo.1
                omega
              simp [afterSpace, hzero]
            omega

def scanCommand (z : Bytes) : Except Failure Bytes := (commandScanner.run z).2

theorem skipScanner_step_nil {z : Bytes} (h : afterSpace (skipSemicolon z) = []) :
    skipScanner.step z = ([], .inr []) := by
  simp [skipScanner, h]

theorem skipScanner_step_command {z rest : Bytes} {c : Byte}
    (h : afterSpace (skipSemicolon z) = c :: rest) (hc : c ≠ chHash) :
    skipScanner.step z = ([], .inr (c :: rest)) := by
  simp [skipScanner, h, hc]

theorem skipScanner_step_comment {z rest : Bytes}
    (h : afterSpace (skipSemicolon z) = chHash :: rest) :
    skipScanner.step z = ([], .inl (skipComment rest)) := by
  simp [skipScanner, h, skipComment_hash]

theorem skip_cases {motive : Bytes → Prop}
    (done : ∀ z, afterSpace (skipSemicolon z) = [] → motive z)
    (command : ∀ z c rest, afterSpace (skipSemicolon z) = c :: rest → c ≠ chHash → motive z)
    (comment : ∀ z rest, afterSpace (skipSemicolon z) = chHash :: rest →
      motive (skipComment rest) → motive z) (z : Bytes) : motive z := by
  induction z using skipScanner.induction with
  | stop z out b h =>
    cases heq : afterSpace (skipSemicolon z) with
    | nil => exact done z heq
    | cons c rest =>
      by_cases hc : c = chHash
      · subst hc
        rw [skipScanner_step_comment heq] at h
        cases h
      · exact command z c rest heq hc
  | next z out z' h ih =>
    cases heq : afterSpace (skipSemicolon z) with
    | nil => exact done z heq
    | cons c rest =>
      by_cases hc : c = chHash
      · subst hc
        rw [skipScanner_step_comment heq] at h
        cases h
        exact comment z rest heq ih
      · exact command z c rest heq hc

theorem skipToCommand_done {z : Bytes} (h : afterSpace (skipSemicolon z) = []) :
    skipToCommand z = [] := by
  rw [skipToCommand, skipScanner.run_of_stop (skipScanner_step_nil h)]

theorem skipToCommand_command {z rest : Bytes} {c : Byte}
    (h : afterSpace (skipSemicolon z) = c :: rest) (hc : c ≠ chHash) :
    skipToCommand z = c :: rest := by
  rw [skipToCommand, skipScanner.run_of_stop (skipScanner_step_command h hc)]

theorem skipToCommand_comment {z rest : Bytes} (h : afterSpace (skipSemicolon z) = chHash :: rest) :
    skipToCommand z = skipToCommand (skipComment rest) := by
  rw [skipToCommand, skipScanner.run_of_next (skipScanner_step_comment h)]
  rfl

theorem skipToCommand_length_le (z : Bytes) :
    (skipToCommand z).length ≤ (afterSpace (skipSemicolon z)).length := by
  induction z using skip_cases with
  | done z h => simp [skipToCommand_done h]
  | command z c rest h hc => simp [skipToCommand_command h hc, h]
  | comment z rest h ih =>
    have hspace := afterSpace_length_le (skipSemicolon (skipComment rest))
    have hsemi := skipSemicolon_length_le (skipComment rest)
    have hcomment := skipComment_length_le rest
    rw [skipToCommand_comment h, h, length_cons]
    omega

theorem skipToCommand_atToken (z : Bytes) : AtToken (skipToCommand z) := by
  induction z using skip_cases with
  | done z h =>
    rw [skipToCommand_done h]
    exact .nil
  | command z c rest h hc =>
    rw [skipToCommand_command h hc, ← h]
    exact afterSpace_atToken _
  | comment z rest h ih => rwa [skipToCommand_comment h]

def CommandEnd (z : Bytes) : Prop :=
  z = [] ∨ z.head? = some chSemicolon ∨ endOfLine z = true

instance (z : Bytes) : Decidable (CommandEnd z) := inferInstanceAs (Decidable (_ ∨ _))

theorem scanCommand_eq (z : Bytes) :
    scanCommand z =
      if CommandEnd z then .ok z
      else nextWord (afterSpace z) true >>= fun nWord =>
        scanCommand ((afterSpace z).drop nWord) := by
  unfold scanCommand
  by_cases hend : CommandEnd z
  · have hstep : commandScanner.step z = ([], .inr (.ok z)) := if_pos hend
    rw [if_pos hend, commandScanner.run_of_stop hstep]
  · have hgo : commandScanner.step z = _ := if_neg hend
    rw [if_neg hend]
    cases hword : nextWord (afterSpace z) true with
    | error e =>
      rw [hword] at hgo
      rw [commandScanner.run_of_stop hgo]
      rfl
    | ok nWord =>
      rw [hword] at hgo
      rw [commandScanner.run_of_next hgo]
      rfl

theorem scan_cases {motive : Bytes → Prop} (stop : ∀ z, CommandEnd z → motive z)
    (unmatched : ∀ z e, ¬ CommandEnd z → nextWord (afterSpace z) true = .error e → motive z)
    (word : ∀ z n, ¬ CommandEnd z → nextWord (afterSpace z) true = .ok n →
      motive ((afterSpace z).drop n) → motive z) (z : Bytes) : motive z := by
  induction z using commandScanner.induction with
  | stop z out b h =>
    by_cases hend : CommandEnd z
    · exact stop z hend
    · have hgo : commandScanner.step z = _ := if_neg hend
      cases hword : nextWord (afterSpace z) true with
      | error e => exact unmatched z e hend hword
      | ok n =>
        rw [hgo, hword] at h
        cases h
  | next z out z' h ih =>
    by_cases hend : CommandEnd z
    · exact stop z hend
    · have hgo : commandScanner.step z = _ := if_neg hend
      cases hword : nextWord (afterSpace z) true with
      | error e => exact unmatched z e hend hword
      | ok n =>
        rw [hgo, hword] at h
        cases h
        exact word z n hend hword ih

theorem scanCommand_stop {z : Bytes} (h : CommandEnd z) : scanCommand z = .ok z := by
  rw [scanCommand_eq, if_pos h]

theorem scanCommand_unmatched {z : Bytes} {e : Failure} (h : ¬ CommandEnd z)
    (hword : nextWord (afterSpace z) true = .error e) : scanCommand z = .error e := by
  rw [scanCommand_eq, if_neg h, hword]
  rfl

theorem scanCommand_word {z : Bytes} {n : ℕ} (h : ¬ CommandEnd z)
    (hword : nextWord (afterSpace z) true = .ok n) :
    scanCommand z = scanCommand ((afterSpace z).drop n) := by
  rw [scanCommand_eq, if_neg h, hword]
  rfl

theorem scanCommand_length_le {z r : Bytes} (h : scanCommand z = .ok r) : r.length ≤ z.length := by
  induction z using scan_cases with
  | stop z hend =>
    rw [scanCommand_stop hend] at h
    cases h
    exact Nat.le_refl _
  | unmatched z e hend hword =>
    rw [scanCommand_unmatched hend hword] at h
    cases h
  | word z n hend hword ih =>
    rw [scanCommand_word hend hword] at h
    have hspace := afterSpace_length_le z
    have hrest := ih h
    rw [length_drop] at hrest
    omega

theorem AtToken.not_endOfLine {z : Bytes} (h : AtToken z) (hne : z ≠ []) : endOfLine z = false := by
  cases h with
  | nil => exact absurd rfl hne
  | @byte c rest hspace hback =>
    have hc : c ≠ chNewline := by
      rintro rfl
      exact absurd hspace (by decide)
    simp [endOfLine, hspace, hc]
  | lone => decide
  | escape hd =>
    simp [endOfLine, (by decide : isSpace chBackslash = false),
      (by decide : chBackslash ≠ chNewline)]

theorem scanCommand_length_lt {z r : Bytes} (htoken : AtToken z) (hne : z ≠ [])
    (hsemi : z.head? ≠ some chSemicolon) (h : scanCommand z = .ok r) :
    r.length < z.length := by
  have hend : ¬ CommandEnd z := by
    simp [CommandEnd, hne, hsemi, htoken.not_endOfLine hne]
  cases hword : nextWord (afterSpace z) true with
  | error e =>
    rw [scanCommand_unmatched hend hword] at h
    cases h
  | ok n =>
    rw [scanCommand_word hend hword] at h
    rw [htoken.afterSpace_eq] at hword h
    have hpos := nextWord_pos htoken hne (fun _ => hsemi) hword
    have hrest := scanCommand_length_le h
    have hlen := length_pos_of_ne_nil hne
    rw [length_drop] at hrest
    omega

theorem skipToCommand_length_lt {z : Bytes} (h : (skipToCommand z).head? = some chSemicolon) :
    (skipToCommand z).length < z.length := by
  have hle := skipToCommand_length_le z
  have hspace := afterSpace_length_le (skipSemicolon z)
  have hsemi := skipSemicolon_length_le z
  by_contra hge
  have hsame : skipSemicolon z = z := by
    cases z with
    | nil => rfl
    | cons c rest =>
      rw [skipSemicolon] at hsemi hle hspace ⊢
      split_ifs at hsemi hle hspace ⊢ with hc
      · simp only [length_cons] at hge
        omega
      · rfl
  rw [hsame] at hle hspace
  have hstay : afterSpace z = z := by
    by_cases hzero : nextSpace z = 0
    · simp [afterSpace, hzero]
    · rw [afterSpace, length_drop] at hle
      cases z with
      | nil => rfl
      | cons c rest =>
        simp only [length_cons] at hle hge
        omega
  cases z with
  | nil => simp [skipToCommand_done (z := []) rfl] at h
  | cons c rest =>
    have hhead : c ≠ chSemicolon := by
      rintro rfl
      have hlen := congrArg List.length hsame
      simp [skipSemicolon] at hlen
    have heq : afterSpace (skipSemicolon (c :: rest)) = c :: rest := by
      rw [hsame, hstay]
    by_cases hc : c = chHash
    · subst hc
      rw [skipToCommand_comment heq] at hge
      have hcomment := skipComment_length_le rest
      have hnext := skipToCommand_length_le (skipComment rest)
      have hnext' := afterSpace_length_le (skipSemicolon (skipComment rest))
      have hnext'' := skipSemicolon_length_le (skipComment rest)
      simp only [length_cons] at hge
      omega
    · rw [skipToCommand_command heq hc] at h
      simp only [head?_cons, Option.some.injEq] at h
      exact hhead h

theorem scanCommand_skip_length_lt {z rest : Bytes} (hne : skipToCommand z ≠ [])
    (hscan : scanCommand (skipToCommand z) = .ok rest) : rest.length < z.length := by
  have hle := scanCommand_length_le hscan
  by_cases hsemi : (skipToCommand z).head? = some chSemicolon
  · have hlt := skipToCommand_length_lt hsemi
    omega
  · have hlt := scanCommand_length_lt (skipToCommand_atToken z) hne hsemi hscan
    have hskip := skipToCommand_length_le z
    have hspace := afterSpace_length_le (skipSemicolon z)
    have hdrop := skipSemicolon_length_le z
    omega

/-- What one round of `th8EvalIteration` does with the rest of the script: it is
exhausted, the scan or the word builder fails, or a command is found.  An empty
command is not dispatched. -/
def evalScanner : Scanner Bytes (List Bytes) (Option Failure) where
  step := fun zInput =>
    let zFirst := skipToCommand zInput
    if zFirst = [] then ([], .inr none)
    else
      match scanCommand zFirst with
      | .error e => ([], .inr (some e))
      | .ok rest =>
        match rawWords (zFirst.take (zFirst.length - rest.length)) with
        | .error e => ([], .inr (some e))
        | .ok ws => (if ws = [] then [] else [ws], .inl rest)
  measure := List.length
  decreases := by
    intro z out z' h
    dsimp only at h
    split at h
    · cases h
    · rename_i hne
      split at h
      · cases h
      · rename_i rest hscan
        split at h
        · cases h
        · cases h
          exact scanCommand_skip_length_lt hne hscan

/-- The commands a script dispatches when each of them succeeds, as lists of
words before substitution, and the failure that stops the script, if any. -/
def dispatched (script : Bytes) : List (List Bytes) × Option Failure :=
  evalScanner.run script

end Th8
