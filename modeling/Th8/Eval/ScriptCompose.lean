import Th8.Eval.ScriptSplit

/-!
# Joining two scripts with a newline

Skipping, scanning and delimiting words all come to the same end on a text and on
the text followed by a newline, with one exception.  When the white space after
the last word of a command holds a backslash-newline and runs to the end of the
text, the scan loop reads on across the newline.
-/

namespace Th8

open Support List

/-! ## Skipping -/

def skipToken : Bytes → Bytes
  | [] => []
  | c :: rest => if c = chHash then skipToCommand (skipComment rest) else c :: rest

theorem skipToCommand_eq_skipToken (z : Bytes) :
    skipToCommand z = skipToken (afterSpace (skipSemicolon z)) := by
  induction z using skip_cases with
  | done z h => simp [skipToCommand_done h, h, skipToken]
  | command z c rest h hc => simp [skipToCommand_command h hc, h, skipToken, hc]
  | comment z rest h ih => simp [skipToCommand_comment h, h, skipToken]

theorem skipSemicolon_append_newline (z B : Bytes) :
    skipSemicolon (z ++ chNewline :: B) = skipSemicolon z ++ chNewline :: B := by
  cases z with
  | nil => simp [skipSemicolon, (by decide : chNewline ≠ chSemicolon)]
  | cons c rest =>
    simp only [cons_append, skipSemicolon]
    split <;> rfl

theorem skipComment_append_newline (z B : Bytes) :
    skipComment (z ++ chNewline :: B) = skipComment z ++ chNewline :: B := by
  induction z with
  | nil => simp [skipComment, endOfLine]
  | cons c rest ih =>
    have hline := endOfLine_append_newline (c :: rest) B
    rw [cons_append] at hline
    rw [cons_append, skipComment, skipComment, hline, ih]
    split <;> rfl

variable {z : Bytes}

theorem evenTail_skipSemicolon (h : evenTail z = true) : evenTail (skipSemicolon z) = true := by
  cases z with
  | nil => exact h
  | cons c rest =>
    rw [skipSemicolon]
    split
    · rename_i hc
      simp only [beq_iff_eq] at hc
      subst hc
      rwa [evenTail_cons (by decide)] at h
    · exact h

theorem evenTail_skipComment (h : evenTail z = true) : evenTail (skipComment z) = true := by
  have key : ∀ p y : Bytes, z = p ++ y → evenTail (skipComment y) = true := by
    intro p y
    induction y generalizing p with
    | nil =>
      intro _
      rfl
    | cons c rest ih =>
      intro hz
      rw [skipComment]
      split
      · rename_i hline
        have hc : c ≠ chBackslash := by
          rintro rfl
          simp [endOfLine, (by decide : isSpace chBackslash = false),
            (by decide : chBackslash ≠ chNewline)] at hline
        rw [← evenTail_append p hc, ← hz]
        exact h
      · exact ih (p ++ [c]) (by simp [hz])
  exact key [] z rfl

theorem skipToCommand_append_newline (heven : evenTail z = true) (B : Bytes) :
    skipToCommand (z ++ chNewline :: B) =
      if skipToCommand z = [] then skipToken (afterSpace B)
      else skipToCommand z ++ chNewline :: B := by
  induction z using skip_cases with
  | done z h =>
    rw [skipToCommand_eq_skipToken (z ++ _), skipSemicolon_append_newline,
      afterSpace_append_newline (evenTail_skipSemicolon heven)]
    simp [h, skipToCommand_done h]
  | command z c rest h hc =>
    rw [skipToCommand_eq_skipToken (z ++ _), skipSemicolon_append_newline,
      afterSpace_append_newline (evenTail_skipSemicolon heven)]
    simp [h, skipToCommand_command h hc, skipToken, hc]
  | comment z rest h ih =>
    have hspace : evenTail (chHash :: rest) = true := by
      rw [← h]
      exact evenTail_afterSpace (evenTail_skipSemicolon heven)
    rw [evenTail_cons (by decide)] at hspace
    rw [skipToCommand_eq_skipToken (z ++ _), skipSemicolon_append_newline,
      afterSpace_append_newline (evenTail_skipSemicolon heven), h,
      if_neg (cons_ne_nil _ _), cons_append, skipToken, if_pos rfl,
      skipComment_append_newline, skipToCommand_comment h]
    exact ih (evenTail_skipComment hspace)

theorem evenTail_skipToCommand (heven : evenTail z = true) : evenTail (skipToCommand z) = true := by
  induction z using skip_cases with
  | done z h =>
    rw [skipToCommand_done h]
    rfl
  | command z c rest h hc =>
    rw [skipToCommand_command h hc, ← h]
    exact evenTail_afterSpace (evenTail_skipSemicolon heven)
  | comment z rest h ih =>
    have hspace : evenTail (chHash :: rest) = true := by
      rw [← h]
      exact evenTail_afterSpace (evenTail_skipSemicolon heven)
    rw [evenTail_cons (by decide)] at hspace
    rw [skipToCommand_comment h]
    exact ih (evenTail_skipComment hspace)

/-- The scan of a command reaches the end of the text in white space that does not
end the line. -/
inductive RunsOn : Bytes → Prop where
  | space {z : Bytes} (hend : ¬ CommandEnd z) (hspace : afterSpace z = []) : RunsOn z
  | word {z : Bytes} {n : ℕ} (hend : ¬ CommandEnd z) (hspace : afterSpace z ≠ [])
      (hword : nextWord (afterSpace z) true = .ok n)
      (hrest : RunsOn ((afterSpace z).drop n)) : RunsOn z

theorem commandEnd_append_newline (z B : Bytes) :
    CommandEnd (z ++ chNewline :: B) ↔ CommandEnd z := by
  unfold CommandEnd
  rw [endOfLine_append_newline]
  cases z with
  | nil => simp [endOfLine]
  | cons c rest => simp

theorem scanCommand_append_newline {r : Bytes} (heven : evenTail z = true) (hruns : ¬ RunsOn z)
    (h : scanCommand z = .ok r) (B : Bytes) :
    scanCommand (z ++ chNewline :: B) = .ok (r ++ chNewline :: B) ∧ evenTail r = true := by
  induction z using scan_cases with
  | stop z hend =>
    rw [scanCommand_stop hend, Except.ok.injEq] at h
    subst h
    exact ⟨scanCommand_stop ((commandEnd_append_newline z B).mpr hend), heven⟩
  | unmatched z e hend hword =>
    rw [scanCommand_unmatched hend hword] at h
    cases h
  | word z n hend hword ih =>
    have hspace : afterSpace z ≠ [] := fun hnil => hruns (.space hend hnil)
    have hrest : ¬ RunsOn ((afterSpace z).drop n) := fun hr =>
      hruns (.word hend hspace hword hr)
    have heven' := evenTail_afterSpace heven
    have hafter : afterSpace (z ++ chNewline :: B) = afterSpace z ++ chNewline :: B := by
      rw [afterSpace_append_newline heven, if_neg hspace]
    have hdrop : (afterSpace z ++ chNewline :: B).drop n =
        (afterSpace z).drop n ++ chNewline :: B :=
      drop_append_of_le_length (nextWord_le hword)
    rw [scanCommand_word hend hword] at h
    rw [scanCommand_word ((commandEnd_append_newline z B).not.mpr hend)
      (by rw [hafter]; exact nextWord_append_newline heven' hword B), hafter, hdrop]
    exact ih (evenTail_drop_nextWord heven' hword) hrest h

theorem RunsOn.scanCommand_append (hruns : RunsOn z) (heven : evenTail z = true) (B : Bytes) :
    scanCommand (z ++ chNewline :: B) = nextWord (afterSpace B) true >>= fun n =>
        scanCommand ((afterSpace B).drop n) := by
  induction hruns with
  | space hend hspace =>
    rw [scanCommand_eq, if_neg ((commandEnd_append_newline _ B).not.mpr hend),
      afterSpace_append_newline heven, if_pos hspace]
  | word hend hspace hword hrest ih =>
    have heven' := evenTail_afterSpace heven
    rw [scanCommand_word ((commandEnd_append_newline _ B).not.mpr hend) (by
        rw [afterSpace_append_newline heven, if_neg hspace]
        exact nextWord_append_newline heven' hword B),
      afterSpace_append_newline heven, if_neg hspace,
      drop_append_of_le_length (nextWord_le hword)]
    exact ih (evenTail_drop_nextWord heven' hword)

theorem RunsOn.scanCommand_eq_nil (hruns : RunsOn z) : scanCommand z = .ok [] := by
  induction hruns with
  | @space z hend hspace =>
    have hword : nextWord (afterSpace z) true = .ok 0 := by
      rw [hspace]
      rfl
    rw [scanCommand_word hend hword, hspace]
    exact scanCommand_stop (.inl rfl)
  | word hend hspace hword hrest ih => rw [scanCommand_word hend hword, ih]

theorem RunsOn.not_commandEnd (hruns : RunsOn z) : ¬ CommandEnd z := by
  cases hruns with
  | space hend hspace => exact hend
  | word hend hspace hword hrest => exact hend

theorem wordScanner_run_stop (h : afterSpace z = []) : wordScanner.run z = ([], none) :=
  wordScanner.run_of_stop (by simp [wordScanner, h])

variable {e : Failure}

theorem wordScanner_run_error (h : afterSpace z ≠ [])
    (hword : nextWord (afterSpace z) false = .error e) :
    wordScanner.run z = ([], some e) :=
  wordScanner.run_of_stop (by simp [wordScanner, h, hword])

theorem wordScanner_run_word {n : ℕ} (h : afterSpace z ≠ [])
    (hword : nextWord (afterSpace z) false = .ok n) :
    wordScanner.run z =
      ((afterSpace z).take n :: (wordScanner.run ((afterSpace z).drop n)).1,
        (wordScanner.run ((afterSpace z).drop n)).2) := by
  have hpos : n ≠ 0 := Nat.ne_of_gt
    (nextWord_pos (afterSpace_atToken z) h (fun hf => by cases hf) hword)
  have hstep : wordScanner.step z = ([(afterSpace z).take n], .inl ((afterSpace z).drop n)) := by
    simp [wordScanner, h, hword, hpos]
  exact wordScanner.run_of_next hstep

theorem word_cases {motive : Bytes → Prop} (done : ∀ z, afterSpace z = [] → motive z)
    (unmatched : ∀ z e, afterSpace z ≠ [] → nextWord (afterSpace z) false = .error e → motive z)
    (word : ∀ z n, afterSpace z ≠ [] → nextWord (afterSpace z) false = .ok n →
      motive ((afterSpace z).drop n) → motive z) (z : Bytes) : motive z := by
  induction hn : z.length using Nat.strongRecOn generalizing z with
  | ind k ih =>
    by_cases h : afterSpace z = []
    · exact done z h
    · cases hword : nextWord (afterSpace z) false with
      | error e => exact unmatched z e h hword
      | ok n =>
        refine word z n h hword (ih _ ?_ _ rfl)
        have hpos := nextWord_pos (afterSpace_atToken z) h (fun hf => by cases hf) hword
        have hlen := length_pos_of_ne_nil h
        have hle := afterSpace_length_le z
        rw [length_drop]
        omega

variable {ws : List Bytes}

theorem rawWords_append_newline (heven : evenTail z = true) (h : rawWords z = .ok ws) (y : Bytes) :
    rawWords (z ++ chNewline :: y) = (rawWords y).map fun vs => ws ++ vs := by
  have hrun : ∀ {z ws}, rawWords z = .ok ws ↔ wordScanner.run z = (ws, none) := by
    intro z ws
    unfold rawWords
    rcases wordScanner.run z with ⟨vs, _ | e⟩ <;> simp
  have key : wordScanner.run (z ++ chNewline :: y) =
      (ws ++ (wordScanner.run y).1, (wordScanner.run y).2) := by
    rw [hrun] at h
    induction z using word_cases generalizing ws with
    | done z hz =>
      rw [wordScanner_run_stop hz] at h
      cases h
      have hafter : afterSpace (z ++ chNewline :: y) = afterSpace y := by
        rw [afterSpace_append_newline heven, if_pos hz]
      exact wordScanner.run_congr (by simp only [wordScanner, hafter])
    | unmatched z e hz hword =>
      rw [wordScanner_run_error hz hword] at h
      cases h
    | word z n hz hword ih =>
      rw [wordScanner_run_word hz hword, Prod.mk.injEq] at h
      have heven' := evenTail_afterSpace heven
      have hafter : afterSpace (z ++ chNewline :: y) = afterSpace z ++ chNewline :: y := by
        rw [afterSpace_append_newline heven, if_neg hz]
      have hle := nextWord_le hword
      rw [wordScanner_run_word (n := n) (by simp [hafter])
        (by rw [hafter]; exact nextWord_append_newline heven' hword y), hafter,
        drop_append_of_le_length hle, take_append_of_le_length hle,
        ih (evenTail_drop_nextWord heven' hword) (Prod.ext rfl h.2), ← h.1]
      rfl
  unfold rawWords
  rw [key]
  rcases wordScanner.run y with ⟨vs, _ | e⟩ <;> rfl

theorem rawWords_of_space (h : afterSpace z = []) : rawWords z = .ok [] := by
  rw [rawWords, wordScanner_run_stop h]

theorem rawWords_ne_nil (h : afterSpace z ≠ []) : rawWords z ≠ .ok [] := by
  unfold rawWords
  cases hword : nextWord (afterSpace z) false with
  | error e => simp [wordScanner_run_error h hword]
  | ok n =>
    rw [wordScanner_run_word h hword]
    rcases wordScanner.run ((afterSpace z).drop n) with ⟨vs, _ | e⟩ <;> simp

/-! ## Whole scripts -/

theorem evalScanner_step_done (h : skipToCommand z = []) :
    evalScanner.step z = ([], .inr none) := by
  simp [evalScanner, h]

/-- The text of the command at the head of `z`, when `rest` is left after it. -/
def commandText (z rest : Bytes) : Bytes := z.take (z.length - rest.length)

variable {y : Bytes}

theorem evalScanner_step_scan (hy : skipToCommand z = y) (hne : y ≠ [])
    (hscan : scanCommand y = .error e) :
    evalScanner.step z = ([], .inr (some e)) := by
  simp [evalScanner, hy, hne, hscan]

variable {rest : Bytes}

theorem evalScanner_step_words (hy : skipToCommand z = y) (hne : y ≠ [])
    (hscan : scanCommand y = .ok rest) (hwords : rawWords (commandText y rest) = .error e) :
    evalScanner.step z = ([], .inr (some e)) := by
  rw [commandText] at hwords
  simp [evalScanner, hy, hne, hscan, hwords]

theorem evalScanner_step_command (hy : skipToCommand z = y) (hne : y ≠ [])
    (hscan : scanCommand y = .ok rest) (hwords : rawWords (commandText y rest) = .ok ws) :
    evalScanner.step z = (if ws = [] then [] else [ws], .inl rest) := by
  rw [commandText] at hwords
  simp [evalScanner, hy, hne, hscan, hwords]

theorem dispatched_done (h : skipToCommand z = []) : dispatched z = ([], none) :=
  evalScanner.run_of_stop (evalScanner_step_done h)

variable {B : Bytes}

theorem dispatched_of_semicolon (h : skipToCommand z = chSemicolon :: B) :
    dispatched z = dispatched (chSemicolon :: B) := by
  have hscan : scanCommand (chSemicolon :: B) = .ok (chSemicolon :: B) :=
    scanCommand_stop (.inr (.inl rfl))
  have hwords : rawWords (commandText (chSemicolon :: B) (chSemicolon :: B)) = .ok [] := by
    simp [commandText, rawWords_of_space afterSpace_nil]
  have hstep := evalScanner_step_command h (cons_ne_nil _ _) hscan hwords
  rw [if_pos rfl] at hstep
  exact evalScanner.run_of_next hstep

theorem dispatched_congr {a b : Bytes} (h : skipToCommand a = skipToCommand b) :
    dispatched a = dispatched b := by
  exact evalScanner.run_congr (by simp only [evalScanner, h])

theorem dispatched_of_skipToken (h : skipToCommand z = skipToken (afterSpace B)) :
    dispatched z = dispatched B := by
  cases B with
  | nil => exact dispatched_congr (h.trans rfl)
  | cons c rest =>
    by_cases hc : c = chSemicolon
    · subst hc
      have htoken : AtToken (chSemicolon :: rest) := .byte (by decide) (by decide)
      rw [htoken.afterSpace_eq, skipToken, if_neg (by decide)] at h
      exact dispatched_of_semicolon h
    · refine dispatched_congr (h.trans ?_)
      rw [skipToCommand_eq_skipToken, skipSemicolon]
      simp [hc]

/-- The script `B` starts, after white space, with a separator or not at all. -/
def StartsWithSeparator (B : Bytes) : Prop :=
  afterSpace B = [] ∨ (afterSpace B).head? = some chSemicolon

theorem dispatched_afterSpace (h : StartsWithSeparator B) :
    dispatched (afterSpace B) = dispatched B := by
  by_cases hB : B.head? = some chSemicolon
  · obtain ⟨rest, rfl⟩ := head?_eq_some_iff.mp hB
    rw [(AtToken.byte (by decide) (by decide) : AtToken (chSemicolon :: rest)).afterSpace_eq]
  have hskip : skipToCommand B = skipToken (afterSpace B) := by
    have hsame : skipSemicolon B = B := by
      cases B with
      | nil => rfl
      | cons c rest =>
        rw [skipSemicolon, if_neg]
        simpa using hB
    rw [skipToCommand_eq_skipToken, hsame]
  rcases h with hnil | hsemi
  · rw [hnil] at hskip ⊢
    exact dispatched_congr hskip.symm
  · obtain ⟨rest, hrest⟩ := head?_eq_some_iff.mp hsemi
    rw [hrest, skipToken, if_neg (by decide)] at hskip
    rw [hrest, dispatched_of_semicolon hskip]

theorem afterSpace_take_nextSpace (B : Bytes) : afterSpace (B.take (nextSpace B)) = [] := by
  induction B using space_cases with
  | token z h => simp [h.nextSpace_eq]
  | space c rest hc ih =>
    rw [nextSpace_space hc, take_succ_cons, afterSpace_space hc, ih]
  | continuation rest ih =>
    rw [nextSpace_continuation, take_succ_cons, take_succ_cons, afterSpace_continuation, ih]

theorem AtToken.take (h : AtToken z) (k : ℕ) : AtToken (z.take k) := by
  rcases k with _ | k
  · exact .nil
  · cases h with
    | nil => exact .nil
    | byte hspace hback => exact .byte hspace hback
    | lone =>
      rw [take_succ_cons, take_nil]
      exact .lone
    | @escape d rest hd =>
      cases k with
      | zero => exact .lone
      | succ k => exact .escape hd

theorem afterSpace_take_ne_nil {k : ℕ} (hk : nextSpace B < k) (hne : afterSpace B ≠ []) :
    afterSpace (B.take k) ≠ [] := by
  induction B using space_cases generalizing k with
  | token z h =>
    rw [h.afterSpace_eq] at hne
    rw [h.nextSpace_eq] at hk
    obtain ⟨k, rfl⟩ : ∃ j, k = j + 1 := ⟨k - 1, by omega⟩
    rw [(h.take (k + 1)).afterSpace_eq]
    cases z with
    | nil => exact absurd rfl hne
    | cons c rest => simp
  | space c rest hc ih =>
    rw [nextSpace_space hc] at hk
    obtain ⟨k, rfl⟩ : ∃ j, k = j + 1 := ⟨k - 1, by omega⟩
    rw [afterSpace_space hc] at hne
    rw [take_succ_cons, afterSpace_space hc]
    exact ih (by omega) hne
  | continuation rest ih =>
    rw [nextSpace_continuation] at hk
    obtain ⟨k, rfl⟩ : ∃ j, k = j + 2 := ⟨k - 2, by omega⟩
    rw [afterSpace_continuation] at hne
    rw [take_succ_cons, take_succ_cons, afterSpace_continuation]
    exact ih (by omega) hne

/-- The last command of the script ends, after its last word, in white space that
holds a backslash-newline and runs to the end of the script. -/
inductive EndsInContinuation : Bytes → Prop where
  | last {z : Bytes} (hruns : RunsOn (skipToCommand z)) : EndsInContinuation z
  | later {z rest : Bytes} (hne : skipToCommand z ≠ [])
      (hscan : scanCommand (skipToCommand z) = .ok rest)
      (hrest : EndsInContinuation rest) : EndsInContinuation z

theorem RunsOn.ne_nil (hruns : RunsOn z) : z ≠ [] := fun hnil =>
  hruns.not_commandEnd (.inl hnil)

theorem not_endsInContinuation_of_done (h : skipToCommand z = []) : ¬ EndsInContinuation z := by
  intro hends
  cases hends with
  | last hruns => exact hruns.ne_nil h
  | later hne hscan hrest => exact hne h

theorem endsInContinuation_iff_rest (hne : skipToCommand z ≠ [])
    (hscan : scanCommand (skipToCommand z) = .ok rest) (hruns : ¬ RunsOn (skipToCommand z)) :
    EndsInContinuation z ↔ EndsInContinuation rest := by
  constructor
  · intro hends
    cases hends with
    | last h => exact absurd h hruns
    | later hne' hscan' hrest =>
      rw [hscan] at hscan'
      cases hscan'
      exact hrest
  · exact .later hne hscan

def CompleteScript (A : Bytes) : Prop :=
  (dispatched A).2 = none ∧ evenTail A = true

def andThen (p q : List (List Bytes) × Option Failure) :
    List (List Bytes) × Option Failure := (p.1 ++ q.1, q.2)

theorem commandText_append (hle : rest.length ≤ y.length) :
    commandText (y ++ chNewline :: B) (rest ++ chNewline :: B) = commandText y rest := by
  unfold commandText
  have hlen : (y ++ chNewline :: B).length - (rest ++ chNewline :: B).length =
      y.length - rest.length := by
    simp only [length_append, length_cons]
    omega
  rw [hlen, take_append_of_le_length (by omega)]

theorem commandText_runsOn (hle : rest.length ≤ B.length) :
    commandText (y ++ chNewline :: B) rest = y ++ chNewline :: B.take (B.length - rest.length) := by
  unfold commandText
  have hlen : (y ++ chNewline :: B).length - rest.length =
      y.length + ((B.length - rest.length) + 1) := by
    simp only [length_append, length_cons]
    omega
  rw [hlen, take_length_add_append, take_succ_cons]

theorem dispatched_append_command (heven : evenTail z = true) (hne : skipToCommand z ≠ [])
    (hruns : ¬ RunsOn (skipToCommand z)) (hscan : scanCommand (skipToCommand z) = .ok rest)
    (hwords : rawWords (commandText (skipToCommand z) rest) = .ok ws) :
    dispatched (z ++ chNewline :: B) =
      ((if ws = [] then [] else [ws]) ++ (dispatched (rest ++ chNewline :: B)).1,
        (dispatched (rest ++ chNewline :: B)).2) ∧ evenTail rest = true := by
  obtain ⟨hscan', heven'⟩ := scanCommand_append_newline (evenTail_skipToCommand heven) hruns hscan B
  have hskip : skipToCommand (z ++ chNewline :: B) = skipToCommand z ++ chNewline :: B := by
    rw [skipToCommand_append_newline heven, if_neg hne]
  have hwords' : rawWords (commandText (skipToCommand z ++ chNewline :: B)
      (rest ++ chNewline :: B)) = .ok ws := by
    rw [commandText_append (scanCommand_length_le hscan), hwords]
  exact ⟨evalScanner.run_of_next (evalScanner_step_command hskip (by simp) hscan' hwords'), heven'⟩

/-- A command that runs on takes the words of `B` up to its first separator. -/
theorem dispatched_append_runsOn (heven : evenTail z = true) (hruns : RunsOn (skipToCommand z))
    (hwords : rawWords (skipToCommand z) = .ok ws) :
    dispatched (z ++ chNewline :: B) = andThen ([ws], none) (dispatched B) ↔
      StartsWithSeparator B := by
  have heven' := evenTail_skipToCommand heven
  have hskip : skipToCommand (z ++ chNewline :: B) = skipToCommand z ++ chNewline :: B := by
    rw [skipToCommand_append_newline heven, if_neg hruns.ne_nil]
  have hne : skipToCommand z ++ chNewline :: B ≠ [] := by simp
  have hscan := hruns.scanCommand_append heven' B
  have hws : ws ≠ [] := by
    rintro rfl
    refine rawWords_ne_nil ?_ hwords
    rw [(skipToCommand_atToken z).afterSpace_eq]
    exact hruns.ne_nil
  have hjoin : ∀ rest : Bytes, rest.length ≤ B.length →
      rawWords (commandText (skipToCommand z ++ chNewline :: B) rest) =
        (rawWords (B.take (B.length - rest.length))).map fun vs => ws ++ vs := by
    intro rest hle
    rw [commandText_runsOn hle, rawWords_append_newline heven' hwords]
  -- a failure here comes before the command of `z` has been dispatched
  have hfail : ∀ e, evalScanner.step (z ++ chNewline :: B) = ([], .inr (some e)) →
      dispatched (z ++ chNewline :: B) ≠ andThen ([ws], none) (dispatched B) := by
    intro e hstep heq
    rw [dispatched, evalScanner.run_of_stop hstep, andThen] at heq
    simp at heq
  constructor
  · intro heq
    by_contra hsep
    unfold StartsWithSeparator at hsep
    rw [not_or] at hsep
    cases hword : nextWord (afterSpace B) true with
    | error e =>
      rw [hword] at hscan
      exact hfail e (evalScanner_step_scan hskip hne hscan) heq
    | ok n =>
      have hpos := nextWord_pos (afterSpace_atToken B) hsep.1 (fun _ => hsep.2) hword
      have hlen := length_pos_of_ne_nil hsep.1
      rw [hword, ok_bind] at hscan
      cases hrest : scanCommand ((afterSpace B).drop n) with
      | error e =>
        rw [hrest] at hscan
        exact hfail e (evalScanner_step_scan hskip hne hscan) heq
      | ok rest =>
        rw [hrest] at hscan
        have hle := scanCommand_length_le hrest
        rw [length_drop] at hle
        have hspace : (afterSpace B).length = B.length - nextSpace B := by
          simp [afterSpace]
        have htext := hjoin rest (by omega)
        have hmore : afterSpace (B.take (B.length - rest.length)) ≠ [] :=
          afterSpace_take_ne_nil (by omega) hsep.1
        cases hvs : rawWords (B.take (B.length - rest.length)) with
        | error e =>
          rw [hvs, map_error] at htext
          exact hfail e (evalScanner_step_words hskip hne hscan htext) heq
        | ok vs =>
          rw [hvs, map_ok] at htext
          have hstep := evalScanner_step_command hskip hne hscan htext
          have happend : ws ++ vs ≠ [] := by simp [hws]
          rw [if_neg happend] at hstep
          rw [dispatched, evalScanner.run_of_next hstep, andThen] at heq
          simp only [singleton_append, Prod.mk.injEq, List.cons.injEq, append_right_eq_self] at heq
          exact rawWords_ne_nil hmore (heq.1.1 ▸ hvs)
  · intro hsep
    have hscan' : scanCommand (skipToCommand z ++ chNewline :: B) = .ok (afterSpace B) := by
      have hzero : nextWord (afterSpace B) true = .ok 0 := by
        rcases hsep with hnil | hsemi
        · rw [hnil]
          rfl
        · obtain ⟨rest, hrest⟩ := head?_eq_some_iff.mp hsemi
          rw [hrest, nextWord_eq_ok, nextWordScan_cons, if_neg (by decide), nextWordFrom.eq_def]
          simp [(by decide : isSpace chSemicolon = false)]
      rw [hscan, hzero, ok_bind, drop_zero]
      refine scanCommand_stop ?_
      rcases hsep with hnil | hsemi
      · exact .inl hnil
      · exact .inr (.inl hsemi)
    have hle := afterSpace_length_le B
    have htext := hjoin (afterSpace B) hle
    have hwidth : B.length - (afterSpace B).length = nextSpace B := by
      have hbound := nextSpace_le B
      simp only [afterSpace, length_drop]
      omega
    rw [hwidth, rawWords_of_space (afterSpace_take_nextSpace B), map_ok, append_nil] at htext
    have hstep := evalScanner_step_command hskip hne hscan' htext
    rw [if_neg hws] at hstep
    rw [dispatched, evalScanner.run_of_next hstep, ← dispatched_afterSpace hsep]
    rfl

theorem evalScanner_step_cases (z : Bytes) :
    (skipToCommand z = [] ∧ evalScanner.step z = ([], .inr none)) ∨
    (∃ e, evalScanner.step z = ([], .inr (some e))) ∨
    ∃ rest ws, skipToCommand z ≠ [] ∧ scanCommand (skipToCommand z) = .ok rest ∧
      rawWords (commandText (skipToCommand z) rest) = .ok ws ∧
      evalScanner.step z = (if ws = [] then [] else [ws], .inl rest) := by
  by_cases hne : skipToCommand z = []
  · exact .inl ⟨hne, evalScanner_step_done hne⟩
  cases hscan : scanCommand (skipToCommand z) with
  | error e => exact .inr (.inl ⟨e, evalScanner_step_scan rfl hne hscan⟩)
  | ok rest =>
    cases hwords : rawWords (commandText (skipToCommand z) rest) with
    | error e => exact .inr (.inl ⟨e, evalScanner_step_words rfl hne hscan hwords⟩)
    | ok ws =>
      exact .inr (.inr ⟨rest, ws, hne, rfl, hwords, evalScanner_step_command rfl hne hscan hwords⟩)

theorem andThen_append_left {out xs : List (List Bytes)} {e : Option Failure}
    {p q : List (List Bytes) × Option Failure} :
    (out ++ p.1, p.2) = andThen (out ++ xs, e) q ↔ p = andThen (xs, e) q := by
  obtain ⟨ps, pe⟩ := p
  simp [andThen]

/-- Joining two scripts with a newline dispatches the commands of the one and then
those of the other exactly when the first does not end in a continuation, or the
second starts with a separator. -/
theorem dispatched_append_newline_iff (A B : Bytes) (hcomplete : CompleteScript A) :
    dispatched (A ++ chNewline :: B) = andThen (dispatched A) (dispatched B) ↔
      ¬ EndsInContinuation A ∨ StartsWithSeparator B := by
  obtain ⟨hclosed, heven⟩ := hcomplete
  -- the induction is on the commands of `A`; each round is one command
  induction hn : A.length using Nat.strongRecOn generalizing A with
  | ind n ih =>
    rcases evalScanner_step_cases A with
      ⟨hdone, -⟩ | ⟨e, hstep⟩ | ⟨rest, ws, hne, hscan, hwords, hstep⟩
    · have hskip : skipToCommand (A ++ chNewline :: B) = skipToken (afterSpace B) := by
        rw [skipToCommand_append_newline heven, if_pos hdone]
      rw [dispatched_of_skipToken hskip, dispatched_done hdone]
      simp [andThen, not_endsInContinuation_of_done hdone]
    · rw [dispatched, evalScanner.run_of_stop hstep] at hclosed
      cases hclosed
    · have hrun : dispatched A = ((if ws = [] then [] else [ws]) ++
          (dispatched rest).1, (dispatched rest).2) := evalScanner.run_of_next hstep
      by_cases hruns : RunsOn (skipToCommand A)
      · have hrest : rest = [] := by
          rw [hruns.scanCommand_eq_nil] at hscan
          cases hscan
          rfl
        subst hrest
        have htext : commandText (skipToCommand A) [] = skipToCommand A := by
          simp [commandText]
        rw [htext] at hwords
        have hws : ws ≠ [] := by
          rintro rfl
          refine rawWords_ne_nil ?_ hwords
          rw [(skipToCommand_atToken A).afterSpace_eq]
          exact hne
        have hA : dispatched A = ([ws], none) := by
          rw [hrun, if_neg hws, dispatched_done (skipToCommand_done rfl)]
          rfl
        rw [hA, dispatched_append_runsOn heven hruns hwords]
        simp [EndsInContinuation.last hruns]
      · obtain ⟨happend, heven'⟩ := dispatched_append_command (B := B) heven hne hruns hscan hwords
        have hclosed' : (dispatched rest).2 = none := by
          rw [hrun] at hclosed
          exact hclosed
        have hlt : rest.length < A.length := evalScanner.decreases hstep
        have hih := ih rest.length (hn ▸ hlt) rest hclosed' heven' rfl
        rw [happend, hrun, andThen_append_left, endsInContinuation_iff_rest hne hscan hruns]
        exact hih

/-- A line continued with a backslash-newline swallows the line after next. -/
theorem dispatched_append_newline_fails :
    CompleteScript (ascii "a \\\n") ∧
      dispatched (ascii "a \\\n" ++ chNewline :: ascii "b") ≠
        andThen (dispatched (ascii "a \\\n")) (dispatched (ascii "b")) := by
  refine ⟨⟨by decide, by decide⟩, by decide⟩

/-- An ordinary line ends at its newline. -/
theorem dispatched_append_newline_plain :
    dispatched (ascii "a;" ++ chNewline :: ascii "b") =
        andThen (dispatched (ascii "a;")) (dispatched (ascii "b")) ↔
      ¬ EndsInContinuation (ascii "a;") ∨ StartsWithSeparator (ascii "b") :=
  dispatched_append_newline_iff _ _ ⟨by decide, by decide⟩

end Th8
