import Mathlib
import Th8.Eval.ScriptCompose
import Th8.Parser.WordPieces

/-!
# Where the evaluator finds words

`th8EvalIteration` measures the words of a command to find its end, and `th8SplitCommand`
measures them again in the text of the command, where a semicolon is a byte as any other.
Here both keep the places of the words: what is left of the script there.
-/

namespace Th8

open Support List

abbrev WordSpan := Bytes × ℕ

def WordSpan.bytes (w : WordSpan) : Bytes := w.1.take w.2

/-- The scan loop of `th8EvalIteration`: the words it measures, and what is left after the
command, or the word that is not closed. -/
def scanWordScanner : Scanner Bytes WordSpan (Except Bytes Bytes) where
  step := fun zInput =>
    if CommandEnd zInput then ([], .inr (.ok zInput))
    else
      let z := afterSpace zInput
      match nextWord z true with
      | .error _ => ([], .inr (.error z))
      | .ok nWord => (if nWord = 0 then [] else [(z, nWord)], .inl (z.drop nWord))
  measure := List.length
  decreases := by
    intro z out z' h
    by_cases hend : CommandEnd z
    · rw [if_pos hend] at h
      cases h
    · rw [if_neg hend] at h
      have hstep : commandScanner.step z = _ := if_neg hend
      rcases hword : nextWord (afterSpace z) true with e | n
      · simp only [hword] at h
        cases h
      · simp only [hword] at h hstep
        cases h
        exact commandScanner.decreases hstep

def scanWords (z : Bytes) : List WordSpan × Except Bytes Bytes := scanWordScanner.run z

theorem scanWords_stop {z : Bytes} (h : CommandEnd z) : scanWords z = ([], .ok z) :=
  scanWordScanner.run_of_stop (if_pos h)

theorem scanWords_unmatched {z : Bytes} {e : Failure} (h : ¬CommandEnd z)
    (hword : nextWord (afterSpace z) true = .error e) :
    scanWords z = ([], .error (afterSpace z)) := by
  have hstep : scanWordScanner.step z = _ := if_neg h
  simp only [hword] at hstep
  exact scanWordScanner.run_of_stop hstep

theorem scanWords_word {z : Bytes} {n : ℕ} (h : ¬CommandEnd z)
    (hword : nextWord (afterSpace z) true = .ok n) :
    scanWords z = ((if n = 0 then [] else [(afterSpace z, n)]) ++
        (scanWords ((afterSpace z).drop n)).1, (scanWords ((afterSpace z).drop n)).2) := by
  have hstep : scanWordScanner.step z = _ := if_neg h
  simp only [hword] at hstep
  exact scanWordScanner.run_of_next hstep

theorem scanCommand_of_scanWords (z : Bytes) :
    match (scanWords z).2 with
    | .ok rest => scanCommand z = .ok rest
    | .error _ => ∃ e, scanCommand z = .error e := by
  induction z using scan_cases with
  | stop z hend =>
    rw [scanWords_stop hend]
    exact scanCommand_stop hend
  | unmatched z e hend hword =>
    rw [scanWords_unmatched hend hword]
    exact ⟨e, scanCommand_unmatched hend hword⟩
  | word z n hend hword ih =>
    rw [scanWords_word hend hword, scanCommand_word hend hword]
    exact ih

theorem scanCommand_of_ok {z rest : Bytes} (h : (scanWords z).2 = .ok rest) :
    scanCommand z = .ok rest := by
  have hscan := scanCommand_of_scanWords z
  rw [h] at hscan
  exact hscan

theorem nextWord_of_mem_scanWords {z : Bytes} {w : WordSpan} (h : w ∈ (scanWords z).1) :
    nextWord w.1 true = .ok w.2 := by
  induction z using scan_cases with
  | stop z hend =>
    rw [scanWords_stop hend] at h
    exact absurd h not_mem_nil
  | unmatched z e hend hword =>
    rw [scanWords_unmatched hend hword] at h
    exact absurd h not_mem_nil
  | word z n hend hword ih =>
    rw [scanWords_word hend hword, mem_append] at h
    rcases h with h | h
    · split_ifs at h
      · exact absurd h not_mem_nil
      · rw [mem_singleton.mp h]
        exact hword
    · exact ih h

/-- One round of the word loop of `th8SplitCommand`. -/
def splitWordStep (parses : Bytes → Bool) (rest zInput : Bytes) :
    List WordSpan × (Bytes ⊕ Option Bytes) :=
  let z := afterSpace zInput
  if z = [] then ([], .inr none)
  else
    match nextWord z false with
    | .error _ => ([], .inr (some (z ++ rest)))
    | .ok nWord =>
      if nWord = 0 then ([], .inr none)
      else if parses (z.take nWord) then ([(z ++ rest, nWord)], .inl (z.drop nWord))
      else ([], .inr (some (z ++ rest)))

theorem splitWordStep_decreases {parses : Bytes → Bool} {rest z : Bytes} {out : List WordSpan}
    {z' : Bytes} (h : splitWordStep parses rest z = (out, .inl z')) : z'.length < z.length := by
  unfold splitWordStep at h
  have hle := afterSpace_length_le z
  by_cases hnil : afterSpace z = []
  · rw [if_pos hnil] at h
    cases h
  · rw [if_neg hnil] at h
    rcases hword : nextWord (afterSpace z) false with e | n
    · simp only [hword] at h
      cases h
    · simp only [hword] at h
      split_ifs at h with hzero hparses
      · cases h
      · cases h
        have hpos := length_pos_of_ne_nil hnil
        rw [length_drop]
        omega
      · cases h

/-- The word loop of `th8SplitCommand` in the text of a command that `rest` follows: the words
up to the first that does not parse, and that one. -/
def splitWordScanner (parses : Bytes → Bool) (rest : Bytes) :
    Scanner Bytes WordSpan (Option Bytes) where
  step := splitWordStep parses rest
  measure := List.length
  decreases := @splitWordStep_decreases parses rest

theorem splitWords_stop (parses : Bytes → Bool) (rest : Bytes) {z : Bytes}
    (h : afterSpace z = []) : (splitWordScanner parses rest).run z = ([], none) := by
  have hstep : (splitWordScanner parses rest).step z = _ := if_pos h
  exact Scanner.run_of_stop _ hstep

theorem splitWords_word (parses : Bytes → Bool) (rest : Bytes) {z : Bytes} {n : ℕ}
    (hne : afterSpace z ≠ []) (hword : nextWord (afterSpace z) false = .ok n) (hn : n ≠ 0) :
    (splitWordScanner parses rest).run z =
      if parses ((afterSpace z).take n) then
        ((afterSpace z ++ rest, n) ::
            ((splitWordScanner parses rest).run ((afterSpace z).drop n)).1,
          ((splitWordScanner parses rest).run ((afterSpace z).drop n)).2)
      else ([], some (afterSpace z ++ rest)) := by
  have hstep : (splitWordScanner parses rest).step z = _ := if_neg hne
  simp only [hword, if_neg hn] at hstep
  by_cases hparses : parses ((afterSpace z).take n) = true
  · rw [if_pos hparses] at hstep ⊢
    exact Scanner.run_of_next _ hstep
  · rw [if_neg hparses] at hstep ⊢
    exact Scanner.run_of_stop _ hstep

def checkWords (parses : Bytes → Bool) : List WordSpan → List WordSpan × Option Bytes
  | [] => ([], none)
  | w :: ws =>
    if parses w.bytes then (w :: (checkWords parses ws).1, (checkWords parses ws).2)
    else ([], some w.1)

/-! ### Cutting the command out of the script -/

theorem afterSpace_take (z : Bytes) (k : ℕ) :
    afterSpace (z.take (nextSpace z + k)) = (afterSpace z).take k := by
  induction z using space_cases with
  | token z h => rw [h.nextSpace_eq, h.afterSpace_eq, Nat.zero_add, (h.take k).afterSpace_eq]
  | space c rest hc ih =>
    rw [nextSpace_space hc, Nat.add_right_comm, take_succ_cons, afterSpace_space hc,
      afterSpace_space hc, ih]
  | continuation rest ih =>
    rw [nextSpace_continuation, Nat.add_right_comm, take_succ_cons, take_succ_cons,
      afterSpace_continuation, afterSpace_continuation, ih]

/-- The text may be cut after a word, but not between the bytes of a backslash-newline, and
directly after the word if a semicolon follows. -/
def CutAt (z : Bytes) (k : ℕ) : Prop :=
  (z.head? = some chSemicolon → k = 0) ∧ ∀ rest, z = chBackslash :: chNewline :: rest → k ≠ 1

theorem advance_eq {k n : ℕ} {r : List Scope × ℕ} :
    advance k r = ([], n) ↔ ∃ m, r = ([], m) ∧ n = m + k := by
  rcases r with ⟨stack, m⟩
  simp only [advance, Prod.mk.injEq]
  constructor
  · rintro ⟨rfl, rfl⟩
    exact ⟨m, ⟨rfl, rfl⟩, rfl⟩
  · rintro ⟨_, ⟨rfl, rfl⟩, rfl⟩
    exact ⟨rfl, rfl⟩

theorem nextWordFrom_take {stack : List Scope} {z : Bytes} {n k : ℕ}
    (h : nextWordFrom true stack z = ([], n)) (hcut : CutAt (z.drop n) k) :
    nextWordFrom false stack (z.take (n + k)) = ([], n) := by
  generalize hcmd : true = isCmd at h
  fun_induction nextWordFrom isCmd stack z generalizing n with
  | case1 stack =>
    simp only [Prod.mk.injEq] at h
    rw [h.1, ← h.2, take_nil, nextWordFrom.eq_def]
  | case2 c rest hspace =>
    simp only [Prod.mk.injEq, true_and] at h
    subst h
    rcases k with _ | k
    · rw [nextWordFrom.eq_def]
      rfl
    · rw [Nat.zero_add, take_succ_cons, nextWordFrom.eq_def]
      simp [hspace]
  | case3 c rest hspace hsemi =>
    simp only [Prod.mk.injEq, true_and] at h
    subst h hcmd
    have hk : k = 0 := hcut.1 (by simpa using hsemi)
    subst hk
    rw [nextWordFrom.eq_def]
    rfl
  | case4 c hspace hsemi hback =>
    simp only [Prod.mk.injEq, true_and] at h
    subst h
    rw [Nat.add_comm, take_succ_cons, take_nil, nextWordFrom.eq_def]
    simp [hspace, hback]
  | case5 c hspace hsemi hback d rest hd =>
    simp only [Prod.mk.injEq, true_and] at h
    subst h
    simp only [beq_iff_eq] at hback hd
    subst hback hd
    have hk : k ≠ 1 := hcut.2 rest rfl
    rcases k with _ | _ | k
    · rw [nextWordFrom.eq_def]
      rfl
    · exact absurd rfl hk
    · rw [Nat.zero_add, take_succ_cons, take_succ_cons, nextWordFrom.eq_def]
      simp [hspace]
  | case6 c hspace hsemi hback d rest hd ih =>
    obtain ⟨m, hm, rfl⟩ := advance_eq.mp h
    have hrest := ih hcut hm
    rw [Nat.add_right_comm, take_succ_cons, take_succ_cons, nextWordFrom.eq_def]
    simp [hspace, hback, hd, hrest, advance]
  | case7 c rest hspace hsemi hback ih =>
    obtain ⟨m, hm, rfl⟩ := advance_eq.mp h
    have hrest := ih hcut hm
    rw [Nat.add_right_comm, take_succ_cons, nextWordFrom.eq_def]
    simp [hspace, hback, hrest, advance]
  | case8 scope below c hback => simp at h
  | case9 scope below c hback d rest ih =>
    obtain ⟨m, hm, rfl⟩ := advance_eq.mp h
    have hrest := ih hcut hm
    rw [Nat.add_right_comm, take_succ_cons, take_succ_cons, nextWordFrom.eq_def]
    simp [hback, hrest, advance]
  | case10 scope below c rest hback ih =>
    obtain ⟨m, hm, rfl⟩ := advance_eq.mp h
    have hrest := ih hcut hm
    rw [Nat.add_right_comm, take_succ_cons, nextWordFrom.eq_def]
    simp [hback, hrest, advance]

theorem nextWord_take {z : Bytes} {n k : ℕ} (h : nextWord z true = .ok n)
    (hcut : CutAt (z.drop n) k) : nextWord (z.take (n + k)) false = .ok n := by
  rw [nextWord_eq_ok] at h ⊢
  rcases z with _ | ⟨c, rest⟩
  · simpa [nextWordScan] using h
  · rw [nextWordScan_cons] at h
    by_cases hopen : opensWord c = true
    · rw [if_pos hopen] at h
      obtain ⟨m, hm, rfl⟩ := advance_eq.mp h
      have hrest := nextWordFrom_take hm hcut
      rw [Nat.add_right_comm, take_succ_cons, nextWordScan_cons, if_pos hopen, hrest]
      rfl
    · rw [if_neg hopen] at h
      have hrest := nextWordFrom_take h hcut
      rcases hnk : n + k with _ | j
      · rw [hnk] at hrest
        obtain rfl : n = 0 := Nat.eq_zero_of_add_eq_zero_right hnk
        rfl
      · rw [hnk] at hrest
        rw [take_succ_cons] at hrest ⊢
        rw [nextWordScan_cons, if_neg hopen, hrest]

theorem scanWords_suffix {z rest : Bytes} {ws : List WordSpan}
    (h : scanWords z = (ws, .ok rest)) : rest <:+ z := by
  induction z using scan_cases generalizing ws with
  | stop z hend =>
    rw [scanWords_stop hend] at h
    cases h
    exact suffix_refl _
  | unmatched z e hend hword =>
    rw [scanWords_unmatched hend hword] at h
    cases h
  | word z n hend hword ih =>
    rw [scanWords_word hend hword, Prod.mk.injEq] at h
    have hrest := ih (Prod.ext rfl h.2)
    exact hrest.trans ((drop_suffix n _).trans (drop_suffix _ z))

theorem cutAt_of_scanWords {z rest : Bytes} {ws : List WordSpan}
    (h : scanWords z = (ws, .ok rest)) : CutAt z (z.length - rest.length) := by
  constructor
  · intro hsemi
    rw [scanWords_stop (.inr (.inl hsemi))] at h
    cases h
    exact Nat.sub_self _
  · rintro y rfl hone
    have hend : ¬CommandEnd (chBackslash :: chNewline :: y) := by
      simp [CommandEnd, endOfLine, (by decide : isSpace chBackslash = false),
        (by decide : chBackslash ≠ chNewline), (by decide : chBackslash ≠ chSemicolon)]
    rcases hword : nextWord (afterSpace (chBackslash :: chNewline :: y)) true with e | n
    · rw [scanWords_unmatched hend hword] at h
      cases h
    · rw [scanWords_word hend hword, Prod.mk.injEq] at h
      have hle := (scanWords_suffix (Prod.ext rfl h.2)).length_le
      have hspace := afterSpace_length_le y
      rw [length_drop, afterSpace_continuation] at hle
      simp only [length_cons] at hone
      omega

theorem commandText_eq_take {z rest : Bytes} (h : rest <:+ afterSpace z) :
    commandText z rest = z.take (nextSpace z + ((afterSpace z).length - rest.length)) := by
  have hle := h.length_le
  have hspace := nextSpace_le z
  rw [commandText]
  congr 1
  rw [afterSpace, length_drop] at hle ⊢
  omega

theorem commandEnd_of_nextWord_zero {z : Bytes} (h : nextWord (afterSpace z) true = .ok 0) :
    CommandEnd (afterSpace z) := by
  by_contra hend
  simp only [CommandEnd, not_or] at hend
  exact absurd (nextWord_pos (afterSpace_atToken z) hend.1 (fun _ => hend.2.1) h) (Nat.lt_irrefl 0)

theorem splitWords_eq_checkWords (parses : Bytes → Bool) {z rest : Bytes} {ws : List WordSpan}
    (h : scanWords z = (ws, .ok rest)) :
    (splitWordScanner parses rest).run (commandText z rest) = checkWords parses ws := by
  induction z using scan_cases generalizing ws with
  | stop z hend =>
    rw [scanWords_stop hend] at h
    cases h
    refine splitWords_stop parses _ ?_
    rw [commandText, Nat.sub_self, take_zero, afterSpace_nil]
  | unmatched z e hend hword =>
    rw [scanWords_unmatched hend hword] at h
    cases h
  | word z n hend hword ih =>
    rw [scanWords_word hend hword, Prod.mk.injEq] at h
    have htail : scanWords ((afterSpace z).drop n) =
        ((scanWords ((afterSpace z).drop n)).1, .ok rest) := Prod.ext rfl h.2
    have hsuffix := scanWords_suffix htail
    have hle := nextWord_le hword
    have hafter : afterSpace (commandText z rest) =
        (afterSpace z).take ((afterSpace z).length - rest.length) := by
      rw [commandText_eq_take (hsuffix.trans (drop_suffix n _)), afterSpace_take]
    rcases Nat.eq_zero_or_pos n with rfl | hpos
    · rw [if_pos rfl, drop_zero, scanWords_stop (commandEnd_of_nextWord_zero hword)] at h
      obtain ⟨hws, hrest⟩ := h
      cases hrest
      rw [Nat.sub_self, take_zero] at hafter
      rw [← hws]
      exact splitWords_stop parses _ hafter
    · have hcut := cutAt_of_scanWords htail
      have hlen : (afterSpace z).length - rest.length =
          n + (((afterSpace z).drop n).length - rest.length) := by
        have hrest := hsuffix.length_le
        rw [length_drop] at hrest ⊢
        omega
      have hwhole : (afterSpace z).take ((afterSpace z).length - rest.length) ++ rest =
          afterSpace z := by
        obtain ⟨p, hp⟩ := hsuffix.trans (drop_suffix n (afterSpace z))
        rw [← hp]
        simp
      have hbytes : ((afterSpace z).take ((afterSpace z).length - rest.length)).take n =
          WordSpan.bytes (afterSpace z, n) := by
        rw [take_take, Nat.min_eq_left (by omega)]
        rfl
      have hdrop : ((afterSpace z).take ((afterSpace z).length - rest.length)).drop n =
          commandText ((afterSpace z).drop n) rest := by
        rw [hlen, drop_take, Nat.add_sub_cancel_left, commandText]
      have hne : afterSpace (commandText z rest) ≠ [] := by
        rw [hafter, hlen]
        refine ne_nil_of_length_pos ?_
        rw [length_take]
        omega
      have hmeasure : nextWord (afterSpace (commandText z rest)) false = .ok n := by
        rw [hafter, hlen]
        exact nextWord_take hword hcut
      rw [splitWords_word parses rest hne hmeasure (Nat.ne_of_gt hpos), hafter, hbytes, hwhole,
        hdrop, ih htail, ← h.1, if_neg (Nat.ne_of_gt hpos), singleton_append, checkWords]

theorem checkWords_of_all {parses : Bytes → Bool} {ws : List WordSpan}
    (h : ∀ w ∈ ws, parses w.bytes = true) : checkWords parses ws = (ws, none) := by
  induction ws with
  | nil => rfl
  | cons w ws ih =>
    rw [checkWords, if_pos (h w mem_cons_self), ih fun v hv => h v (mem_cons_of_mem w hv)]

theorem exists_checkWords_of_not_all {parses : Bytes → Bool} {ws : List WordSpan}
    (h : ¬∀ w ∈ ws, parses w.bytes = true) : ∃ w ∈ ws, (checkWords parses ws).2 = some w.1 := by
  induction ws with
  | nil => exact absurd (fun w hw => absurd hw not_mem_nil) h
  | cons w ws ih =>
    rw [checkWords]
    by_cases hw : parses w.bytes = true
    · have hrest : ¬∀ v ∈ ws, parses v.bytes = true := by
        intro hall
        apply h
        intro v hv
        rcases mem_cons.mp hv with rfl | hv
        · exact hw
        · exact hall v hv
      obtain ⟨v, hv, hbad⟩ := ih hrest
      exact ⟨v, mem_cons_of_mem w hv, by rw [if_pos hw, hbad]⟩
    · exact ⟨w, mem_cons_self, by rw [if_neg hw]⟩

/-- The commands of a script, word by word, and the place of a parse error: the first word of
the command that has it, and the word it is in. -/
abbrev Boundaries := List (List WordSpan) × Option (Bytes × Bytes)

def emitted (ws : List WordSpan) : List (List WordSpan) := if ws = [] then [] else [ws]

/-- The rounds of `th8EvalIteration` on a script whose commands all succeed. -/
def evalSpanScanner (parses : Bytes → Bool) :
    Scanner Bytes (List WordSpan) (Option (Bytes × Bytes)) where
  step := fun zInput =>
    let zFirst := skipToCommand zInput
    if zFirst = [] then ([], .inr none)
    else
      match (scanWords zFirst).2 with
      | .error z => ([], .inr (some (zFirst, z)))
      | .ok rest =>
        match (splitWordScanner parses rest).run (commandText zFirst rest) with
        | (_, some z) => ([], .inr (some (zFirst, z)))
        | (ws, none) => (emitted ws, .inl rest)
  measure := List.length
  decreases := by
    intro z out z' h
    by_cases hnil : skipToCommand z = []
    · rw [if_pos hnil] at h
      cases h
    · rw [if_neg hnil] at h
      rcases hscan : (scanWords (skipToCommand z)).2 with p | rest
      · simp only [hscan] at h
        cases h
      · simp only [hscan] at h
        rcases hsplit : (splitWordScanner parses rest).run
            (commandText (skipToCommand z) rest) with ⟨ws, _ | p⟩
        · simp only [hsplit] at h
          cases h
          exact scanCommand_skip_length_lt hnil (scanCommand_of_ok hscan)
        · simp only [hsplit] at h
          cases h

def evalSpans (parses : Bytes → Bool) (script : Bytes) : Boundaries :=
  (evalSpanScanner parses).run script

section Evaluator

variable (parses : Bytes → Bool) {z : Bytes}

theorem evalSpans_congr {z z' : Bytes} (h : skipToCommand z = skipToCommand z') :
    evalSpans parses z = evalSpans parses z' :=
  Scanner.run_congr _ (by simp only [evalSpanScanner, h])

theorem evalSpans_done (h : skipToCommand z = []) : evalSpans parses z = ([], none) :=
  Scanner.run_of_stop _ (if_pos h)

theorem evalSpans_unclosed {p : Bytes} (hne : skipToCommand z ≠ [])
    (h : (scanWords (skipToCommand z)).2 = .error p) :
    evalSpans parses z = ([], some (skipToCommand z, p)) := by
  have hstep : (evalSpanScanner parses).step z = _ := if_neg hne
  simp only [h] at hstep
  exact Scanner.run_of_stop _ hstep

variable {rest : Bytes} {ws : List WordSpan}

theorem evalSpans_command (hne : skipToCommand z ≠ [])
    (h : scanWords (skipToCommand z) = (ws, .ok rest)) (hall : ∀ w ∈ ws, parses w.bytes = true) :
    evalSpans parses z = (emitted ws ++ (evalSpans parses rest).1, (evalSpans parses rest).2) := by
  have hstep : (evalSpanScanner parses).step z = _ := if_neg hne
  simp only [congrArg Prod.snd h, splitWords_eq_checkWords parses h,
    checkWords_of_all hall] at hstep
  exact Scanner.run_of_next _ hstep

theorem evalSpans_badWord (hne : skipToCommand z ≠ [])
    (h : scanWords (skipToCommand z) = (ws, .ok rest)) (hall : ¬∀ w ∈ ws, parses w.bytes = true) :
    ∃ w ∈ ws, evalSpans parses z = ([], some (skipToCommand z, w.1)) := by
  obtain ⟨w, hw, hbad⟩ := exists_checkWords_of_not_all hall
  have hstep : (evalSpanScanner parses).step z = _ := if_neg hne
  have hsplit := splitWords_eq_checkWords parses h
  rw [show checkWords parses ws = ((checkWords parses ws).1, some w.1) from Prod.ext rfl hbad]
    at hsplit
  simp only [congrArg Prod.snd h, hsplit] at hstep
  exact ⟨w, hw, Scanner.run_of_stop _ hstep⟩

theorem skipToCommand_semicolon (z : Bytes) :
    skipToCommand (chSemicolon :: z) = skipToken (afterSpace z) := by
  rw [skipToCommand_eq_skipToken]
  rfl

theorem skipToCommand_of_ne_semicolon (h : z.head? ≠ some chSemicolon) :
    skipToCommand z = skipToken (afterSpace z) := by
  rw [skipToCommand_eq_skipToken]
  rcases z with _ | ⟨c, rest⟩
  · rfl
  · rw [skipSemicolon, if_neg (by simpa using h)]

theorem evalSpans_of_skip_semicolon {z z' : Bytes} (h : skipToCommand z = chSemicolon :: z') :
    evalSpans parses z = evalSpans parses (chSemicolon :: z') := by
  have hscan : scanWords (skipToCommand z) = ([], .ok (chSemicolon :: z')) := by
    rw [h]
    exact scanWords_stop (.inr (.inl rfl))
  exact evalSpans_command parses (by simp [h]) hscan (fun w hw => absurd hw not_mem_nil)

theorem evalSpans_of_skipToken {z z' : Bytes} (h : skipToCommand z = skipToken (afterSpace z')) :
    evalSpans parses z = evalSpans parses z' := by
  by_cases hsemi : z'.head? = some chSemicolon
  · rcases z' with _ | ⟨c, rest⟩
    · cases hsemi
    · cases hsemi
      rw [(AtToken.byte (by decide) (by decide)).afterSpace_eq] at h
      exact evalSpans_of_skip_semicolon parses h
  · exact evalSpans_congr parses (h.trans (skipToCommand_of_ne_semicolon hsemi).symm)

theorem evalSpans_semicolon (z : Bytes) :
    evalSpans parses (chSemicolon :: z) = evalSpans parses z :=
  evalSpans_of_skipToken parses (skipToCommand_semicolon z)

theorem evalSpans_afterSpace (z : Bytes) :
    evalSpans parses (afterSpace z) = evalSpans parses z := by
  by_cases hsemi : z.head? = some chSemicolon
  · rcases z with _ | ⟨c, rest⟩
    · cases hsemi
    · cases hsemi
      rw [(AtToken.byte (by decide) (by decide)).afterSpace_eq]
  · refine (evalSpans_of_skipToken parses ?_).symm
    rw [skipToCommand_of_ne_semicolon hsemi, (afterSpace_atToken z).afterSpace_eq]

theorem evalSpans_space {c : Byte} (hc : isSpace c = true) (z : Bytes) :
    evalSpans parses (c :: z) = evalSpans parses z := by
  rw [← evalSpans_afterSpace, afterSpace_space hc, evalSpans_afterSpace]

theorem evalSpans_continuation (z : Bytes) :
    evalSpans parses (chBackslash :: chNewline :: z) = evalSpans parses z := by
  rw [← evalSpans_afterSpace, afterSpace_continuation, evalSpans_afterSpace]

theorem evalSpans_hash (z : Bytes) :
    evalSpans parses (chHash :: z) = evalSpans parses (skipComment z) :=
  evalSpans_congr parses (skipToCommand_comment
    (AtToken.byte (by decide) (by decide) : AtToken (chHash :: z)).afterSpace_eq)

end Evaluator

end Th8
