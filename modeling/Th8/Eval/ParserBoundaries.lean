import Th8.Eval.Boundaries
import Th8.Parser.ParseCommand

/-!
# Where the parser for tools finds words

`th8ParseCommand` and the evaluator find their commands, words and parse errors with the same
tokenizer.  What each skips between two commands is its own, and so is where it takes a command
for ended.  Here the two are compared piece by piece.
-/

namespace Th8

open Support List

def ParsedWord.span (w : ParsedWord) : WordSpan := (w.zData, w.nData)

def parseWordSpans (z : Bytes) : List WordSpan × Except Bytes Bytes :=
  let r := (parseWordScanner 1).run z
  (r.1.map ParsedWord.span, r.2.mapError Prod.snd)

def Parse.place (p : Parse) : Bytes × Bytes := (afterSpace (p.zCommand.getD p.zAfter), p.zAfter)

/-- The boundaries that calls of `th8ParseCommand` find. -/
def parseSpans (script : Bytes) : Boundaries :=
  ((parseScript script).1.map (List.map ParsedWord.span), (parseScript script).2.map Parse.place)

/-! ### The word loop -/

section WordLoop

variable {z : Bytes}

theorem parseWordSpans_stop (h : AtTerminator z) : parseWordSpans z = ([], .ok z) := by
  rw [parseWordSpans, parseWords_stop h]
  rfl

theorem parseWordSpans_space (h : ¬AtTerminator z) (h' : AtTerminator (afterSpace z)) :
    parseWordSpans z = ([], .ok (afterSpace z)) := by
  rw [parseWordSpans, parseWords_space h h']
  rfl

theorem parseWordSpans_unmatched {e : Failure} (h : ¬AtTerminator z)
    (h' : ¬AtTerminator (afterSpace z)) (hword : nextWord (afterSpace z) true = .error e) :
    parseWordSpans z = ([], .error (afterSpace z)) := by
  rw [parseWordSpans, parseWords_unmatched h h' hword]
  rfl

theorem parseWordSpans_word {n : ℕ} (h : ¬AtTerminator z) (h' : ¬AtTerminator (afterSpace z))
    (hword : nextWord (afterSpace z) true = .ok n) :
    parseWordSpans z = ((afterSpace z, n) :: (parseWordSpans ((afterSpace z).drop n)).1,
      (parseWordSpans ((afterSpace z).drop n)).2) := by
  rw [parseWordSpans, parseWords_word h h' hword]
  rfl

theorem parseWordSpans_eq (nLine : ℕ) (z : Bytes) :
    parseWordSpans z = (((parseWordScanner nLine).run z).1.map ParsedWord.span,
      ((parseWordScanner nLine).run z).2.mapError Prod.snd) := by
  induction z using parseWord_cases with
  | stop z h => rw [parseWordSpans_stop h, parseWords_stop h]; rfl
  | space z h h' => rw [parseWordSpans_space h h', parseWords_space h h']; rfl
  | unmatched z e h h' hword =>
    rw [parseWordSpans_unmatched h h' hword, parseWords_unmatched h h' hword]
    rfl
  | word z n h h' hword ih =>
    rw [parseWordSpans_word h h' hword, parseWords_word h h' hword, ih]
    rfl

theorem isSimple_of_mem {nLine : ℕ} {w : ParsedWord}
    (h : w ∈ ((parseWordScanner nLine).run z).1) : w.isSimple = isSimpleWord w.span.bytes := by
  induction z using parseWord_cases with
  | stop z hend =>
    rw [parseWords_stop hend] at h
    exact absurd h not_mem_nil
  | space z hend hspace =>
    rw [parseWords_space hend hspace] at h
    exact absurd h not_mem_nil
  | unmatched z e hend hspace hword =>
    rw [parseWords_unmatched hend hspace hword] at h
    exact absurd h not_mem_nil
  | word z n hend hspace hword ih =>
    rw [parseWords_word hend hspace hword] at h
    rcases mem_cons.mp h with rfl | h
    · rfl
    · exact ih h

theorem parseWordSpans_afterSpace (h : ¬AtTerminator z) (h' : ¬AtTerminator (afterSpace z)) :
    parseWordSpans (afterSpace z) = parseWordSpans z := by
  have hsame := (afterSpace_atToken z).afterSpace_eq
  rcases hword : nextWord (afterSpace z) true with e | n
  · rw [parseWordSpans_unmatched h h' hword,
      parseWordSpans_unmatched h' (hsame.symm ▸ h') (hsame.symm ▸ hword), hsame]
  · rw [parseWordSpans_word h h' hword,
      parseWordSpans_word h' (hsame.symm ▸ h') (hsame.symm ▸ hword), hsame]

theorem exists_word_of_parse {ws : List WordSpan} {zEnd : Bytes} (htoken : AtToken z)
    (hend : ¬AtTerminator z) (h : parseWordSpans z = (ws, .ok zEnd)) :
    ∃ n ws', ws = (z, n) :: ws' := by
  have hsame := htoken.afterSpace_eq
  rcases hword : nextWord (afterSpace z) true with e | n
  · rw [parseWordSpans_unmatched hend (hsame.symm ▸ hend) hword] at h
    cases h
  · rw [parseWordSpans_word hend (hsame.symm ▸ hend) hword, hsame, Prod.mk.injEq] at h
    exact ⟨n, _, h.1.symm⟩

theorem nextWord_of_parse_error {ws : List WordSpan} {p : Bytes}
    (h : parseWordSpans z = (ws, .error p)) : ∃ e, nextWord p true = .error e := by
  induction z using parseWord_cases generalizing ws with
  | stop z hend =>
    rw [parseWordSpans_stop hend] at h
    cases h
  | space z hend hspace =>
    rw [parseWordSpans_space hend hspace] at h
    cases h
  | unmatched z e hend hspace hword =>
    rw [parseWordSpans_unmatched hend hspace hword] at h
    cases h
    exact ⟨e, hword⟩
  | word z n hend hspace hword ih =>
    rw [parseWordSpans_word hend hspace hword, Prod.mk.injEq] at h
    exact ih (Prod.ext rfl h.2)

end WordLoop

variable {z : Bytes} {p : Parse}

theorem parseScriptScanner_step (hne : z ≠ []) (hcall : parseCommand 1 z = (p, none)) :
    parseScript z = ((if p.aWord = [] then [] else [p.aWord]) ++ (parseScript p.zAfter).1,
      (parseScript p.zAfter).2) := by
  have hstep : parseScriptScanner.step z = _ := if_neg hne
  simp only [hcall] at hstep
  exact parseScriptScanner.run_of_next hstep

theorem parseScriptScanner_fail {e : Failure} (hne : z ≠ [])
    (hcall : parseCommand 1 z = (p, some e)) : parseScript z = ([], some p) := by
  have hstep : parseScriptScanner.step z = _ := if_neg hne
  simp only [hcall] at hstep
  exact parseScriptScanner.run_of_stop hstep

theorem parseSpans_nil : parseSpans [] = ([], none) := rfl

theorem parseSpans_step (hne : z ≠ []) (hcall : parseCommand 1 z = (p, none)) :
    parseSpans z = (emitted (p.aWord.map ParsedWord.span) ++ (parseSpans p.zAfter).1,
      (parseSpans p.zAfter).2) := by
  rw [parseSpans, parseScriptScanner_step hne hcall, parseSpans, emitted]
  by_cases hnil : p.aWord = []
  · simp [hnil]
  · simp [hnil]

section Calls

variable {z : Bytes}

theorem parseSpans_done (h : lead z = []) : parseSpans z = ([], none) := by
  by_cases hne : z = []
  · rw [hne, parseSpans_nil]
  · have hfound := parseCommand_found 1 z
    rcases hcall : parseCommand 1 z with ⟨p, e⟩
    rw [hcall] at hfound
    cases hfound with
    | done _ hwords hafter =>
      rw [parseSpans_step hne hcall, hwords, hafter, parseSpans_nil]
      rfl
    | comment h' => rw [h] at h'; cases h'
    | unmatched h' => exact absurd h (ne_nil_of_not_atTerminator h')
    | command h' => exact absurd h (ne_nil_of_not_atTerminator h')

theorem ne_nil_of_lead {c : Byte} {rest : Bytes} (h : lead z = c :: rest) : z ≠ [] := by
  rintro rfl
  cases h

theorem parseSpans_comment {rest : Bytes} (h : lead z = chHash :: rest) :
    parseSpans z = parseSpans ((parseComment (lead z)).drop 1) := by
  have hne := ne_nil_of_lead h
  have hfound := parseCommand_found 1 z
  rcases hcall : parseCommand 1 z with ⟨p, e⟩
  rw [hcall] at hfound
  cases hfound with
  | done h' => rw [h] at h'; cases h'
  | comment _ hwords hafter =>
    rw [parseSpans_step hne hcall, hwords, hafter]
    rfl
  | unmatched _ h' => exact absurd (by rw [h]; rfl) h'
  | command _ h' => exact absurd (by rw [h]; rfl) h'

theorem parseSpans_words (hne : lead z ≠ []) (hcomment : (lead z).head? ≠ some chHash) :
    parseSpans z = match parseWordSpans (lead z) with
      | (_, .error p) => ([], some (afterSpace (lead z), p))
      | (ws, .ok zEnd) => (emitted ws ++ (parseSpans (skipTerminator zEnd)).1,
          (parseSpans (skipTerminator zEnd)).2) := by
  have hne' : z ≠ [] := by
    rintro rfl
    exact hne rfl
  have hfound := parseCommand_found 1 z
  rcases hcall : parseCommand 1 z with ⟨p, e⟩
  rw [hcall] at hfound
  cases hfound with
  | done h => exact absurd h hne
  | comment h => exact absurd (by rw [h]; rfl) hcomment
  | @unmatched nLine₁ aWord e zAfter _ _ hwords hcommand hafter =>
    rw [parseWordSpans_eq nLine₁, hwords, parseSpans, parseScriptScanner_fail hne' hcall]
    dsimp only at hcommand hafter
    simp [Parse.place, hcommand, hafter, Except.mapError]
  | @command nLine₁ zEnd _ _ hwords hafter =>
    rw [parseWordSpans_eq nLine₁, hwords, parseSpans_step hne' hcall, hafter]
    rfl

end Calls

/-! ### What the parser skips -/

theorem lead_lead (z : Bytes) : lead (lead z) = lead z := by
  rcases hz : lead z with _ | ⟨c, rest⟩
  · rfl
  · exact dropWhile_cons_of_neg (by simp [not_isLead_of_lead hz])

variable {c : Byte}

theorem lead_of_isLead (hc : isLead c = true) (z : Bytes) :
    lead (c :: z) = lead z := dropWhile_cons_of_pos hc

theorem parseSpans_lead (z : Bytes) : parseSpans (lead z) = parseSpans z := by
  have hlead := lead_lead z
  rcases hz : lead z with _ | ⟨c, rest⟩
  · rw [parseSpans_done hz, parseSpans_nil]
  · rw [hz] at hlead
    by_cases hc : c = chHash
    · subst hc
      rw [parseSpans_comment hlead, parseSpans_comment hz, hlead, hz]
    · have hne : lead z ≠ [] := by simp [hz]
      have hhash : (lead z).head? ≠ some chHash := by simpa [hz] using hc
      rw [parseSpans_words hne hhash, parseSpans_words (z := c :: rest) (by simp [hlead])
        (by simpa [hlead] using hc), hlead, hz]

theorem parseSpans_isLead (hc : isLead c = true) (z : Bytes) :
    parseSpans (c :: z) = parseSpans z := by
  rw [← parseSpans_lead, lead_of_isLead hc, parseSpans_lead]

theorem parseSpans_skipTerminator (h : AtTerminator z) :
    parseSpans (skipTerminator z) = parseSpans z := by
  rw [skipTerminator, if_pos h]
  rcases z with _ | ⟨c, rest⟩
  · rfl
  · exact (parseSpans_isLead (isLead_of_isTerminator (h c rfl)) rest).symm

theorem AtToken.eq_or_of_atTerminator (h : AtToken z) (hend : AtTerminator z) :
    z = [] ∨ z.head? = some chSemicolon := by
  have hne : ∀ {c : Byte}, isTerminator c = true → isSpace c = false → c = chSemicolon := by
    intro c hc hspace
    simp only [isTerminator, Bool.or_eq_true, beq_iff_eq] at hc
    rcases hc with (rfl | rfl) | rfl
    · rfl
    · exact absurd hspace (by decide)
    · exact absurd hspace (by decide)
  cases h with
  | nil => exact .inl rfl
  | byte hspace hback => exact .inr (congrArg some (hne (hend _ rfl) hspace))
  | lone => exact absurd (hend _ rfl) (by decide)
  | escape hd => exact absurd (hend _ rfl) (by decide)

theorem parseSpans_afterSpace (h : AtTerminator (afterSpace z)) :
    parseSpans (afterSpace z) = parseSpans z := by
  induction z using space_cases with
  | token z hz => rw [hz.afterSpace_eq]
  | space c rest hc ih =>
    rw [afterSpace_space hc] at h ⊢
    rw [ih h, parseSpans_isLead (by simp [isLead, hc])]
  | continuation rest ih =>
    have hlead : lead (chBackslash :: chNewline :: rest) = chBackslash :: chNewline :: rest :=
      dropWhile_cons_of_neg (by decide)
    have hstart : ¬AtTerminator (chBackslash :: chNewline :: rest) :=
      not_atTerminator_of_not_isLead (by decide) _
    rw [parseSpans_words (z := chBackslash :: chNewline :: rest) (by simp [hlead])
      (by simp [hlead, (by decide : chBackslash ≠ chHash)]), hlead, parseWordSpans_space hstart h]
    exact (parseSpans_skipTerminator h).symm

theorem parseSpans_command (hcomment : (lead z).head? ≠ some chHash)
    (hend : ¬AtTerminator (afterSpace (lead z))) :
    parseSpans z = match parseWordSpans (afterSpace (lead z)) with
      | (_, .error p) => ([], some (afterSpace (lead z), p))
      | (ws, .ok zEnd) => (emitted ws ++ (parseSpans (skipTerminator zEnd)).1,
          (parseSpans (skipTerminator zEnd)).2) := by
  have hne : lead z ≠ [] := fun hnil => hend (by simp [hnil, AtTerminator])
  have hstart : ¬AtTerminator (lead z) := by
    rcases hz : lead z with _ | ⟨c, rest⟩
    · exact absurd hz hne
    · exact not_atTerminator_of_not_isLead (not_isLead_of_lead hz) rest
  rw [parseSpans_words hne hcomment, parseWordSpans_afterSpace hstart hend]

theorem call_cases {motive : Bytes → Prop} (done : ∀ z, lead z = [] → motive z)
    (comment : ∀ z rest, lead z = chHash :: rest →
      motive ((parseComment (lead z)).drop 1) → motive z)
    (empty : ∀ z, lead z ≠ [] → AtTerminator (afterSpace (lead z)) →
      motive ((afterSpace (lead z)).drop 1) → motive z)
    (command : ∀ z, (lead z).head? ≠ some chHash → ¬AtTerminator (afterSpace (lead z)) →
      (∀ z', z'.length < z.length → motive z') → motive z) (z : Bytes) : motive z := by
  induction hn : z.length using Nat.strongRecOn generalizing z with
  | ind k ih =>
    have hle := lead_length_le z
    have hspace := afterSpace_length_le (lead z)
    by_cases hnil : lead z = []
    · exact done z hnil
    have hpos := length_pos_of_ne_nil hnil
    by_cases hhash : (lead z).head? = some chHash
    · obtain ⟨rest, hrest⟩ := head?_eq_some_iff.mp hhash
      refine comment z rest hrest (ih _ ?_ _ rfl)
      have hcomment := parseComment_length_le (lead z)
      rw [length_drop]
      omega
    by_cases hend : AtTerminator (afterSpace (lead z))
    · refine empty z hnil hend (ih _ ?_ _ rfl)
      rw [length_drop]
      omega
    · exact command z hhash hend fun z' hz' => ih _ (hn ▸ hz') z' rfl

theorem parseSpans_empty (hend : AtTerminator (afterSpace (lead z))) :
    parseSpans z = parseSpans ((afterSpace (lead z)).drop 1) := by
  rw [← parseSpans_lead, ← parseSpans_afterSpace hend, ← parseSpans_skipTerminator hend,
    skipTerminator, if_pos hend]

/-! ## The ends of commands -/

/-- The words of a command for which the two loops find the same end: the words, and the text
behind the last one, or the word that is not closed.  The loops may differ about where the
command ends only if no word is left in it. -/
inductive WordsAlike : Bytes → List WordSpan → Except Bytes Bytes → Prop where
  | ended {z : Bytes} (h : (AtTerminator z ∧ CommandEnd z) ∨ AtTerminator (afterSpace z)) :
      WordsAlike z [] (.ok z)
  | unclosed {z : Bytes} {e : Failure} (hparse : ¬AtTerminator z) (heval : ¬CommandEnd z)
      (hspace : ¬AtTerminator (afterSpace z)) (hword : nextWord (afterSpace z) true = .error e) :
      WordsAlike z [] (.error (afterSpace z))
  | word {z : Bytes} {n : ℕ} {ws : List WordSpan} {out : Except Bytes Bytes}
      (hparse : ¬AtTerminator z) (heval : ¬CommandEnd z) (hspace : ¬AtTerminator (afterSpace z))
      (hword : nextWord (afterSpace z) true = .ok n)
      (hrest : WordsAlike ((afterSpace z).drop n) ws out) :
      WordsAlike z ((afterSpace z, n) :: ws) out

theorem AtToken.nextWord_of_atTerminator (h : AtToken z) (hend : AtTerminator z) :
    nextWord z true = .ok 0 := by
  rw [nextWord_eq_ok]
  rcases h.eq_or_of_atTerminator hend with rfl | hsemi
  · rfl
  · obtain ⟨rest, rfl⟩ := head?_eq_some_iff.mp hsemi
    rw [nextWordScan_cons, if_neg (by decide), nextWordFrom.eq_def]
    rfl

theorem AtToken.commandEnd_of_atTerminator (h : AtToken z) (hend : AtTerminator z) : CommandEnd z :=
  (h.eq_or_of_atTerminator hend).imp id .inl

theorem scanWords_space (h : ¬CommandEnd z) (h' : AtTerminator (afterSpace z)) :
    scanWords z = ([], .ok (afterSpace z)) := by
  have htoken := afterSpace_atToken z
  rw [scanWords_word h (htoken.nextWord_of_atTerminator h'), drop_zero,
    scanWords_stop (htoken.commandEnd_of_atTerminator h')]
  rfl

section Alike

variable {z r p : Bytes} {ws : List WordSpan}

theorem WordsAlike.unclosed_both (h : WordsAlike z ws (.error p)) :
    parseWordSpans z = (ws, .error p) ∧ scanWords z = (ws, .error p) := by
  generalize hout : Except.error p = out at h
  induction h with
  | ended => cases hout
  | unclosed hparse heval hspace hword =>
    cases hout
    exact ⟨parseWordSpans_unmatched hparse hspace hword, scanWords_unmatched heval hword⟩
  | word hparse heval hspace hword hrest ih =>
    obtain ⟨hp, he⟩ := ih hout
    have hpos := Nat.ne_of_gt (parsedWord_pos hspace hword)
    refine ⟨?_, ?_⟩
    · rw [parseWordSpans_word hparse hspace hword, hp]
    · rw [scanWords_word heval hword, he, if_neg hpos]
      rfl

section

variable (h : WordsAlike z ws (.ok r))

include h

theorem WordsAlike.parse :
    ∃ zEnd, parseWordSpans z = (ws, .ok zEnd) ∧
      parseSpans (skipTerminator zEnd) = parseSpans r := by
  generalize hout : Except.ok r = out at h
  induction h with
  | @ended z h =>
    cases hout
    by_cases hstop : AtTerminator r
    · exact ⟨r, parseWordSpans_stop hstop, parseSpans_skipTerminator hstop⟩
    · have hspace := h.resolve_left fun h' => hstop h'.1
      exact ⟨afterSpace r, parseWordSpans_space hstop hspace,
        (parseSpans_skipTerminator hspace).trans (parseSpans_afterSpace hspace)⟩
  | unclosed => cases hout
  | word hparse heval hspace hword hrest ih =>
    obtain ⟨zEnd, hp, hsame⟩ := ih hout
    exact ⟨zEnd, by rw [parseWordSpans_word hparse hspace hword, hp], hsame⟩

theorem WordsAlike.scan (parses : Bytes → Bool) :
    ∃ rest, scanWords z = (ws, .ok rest) ∧ evalSpans parses rest = evalSpans parses r := by
  generalize hout : Except.ok r = out at h
  induction h with
  | @ended z h =>
    cases hout
    by_cases hstop : CommandEnd r
    · exact ⟨r, scanWords_stop hstop, rfl⟩
    · have hspace := h.resolve_left fun h' => hstop h'.2
      exact ⟨afterSpace r, scanWords_space hstop hspace, evalSpans_afterSpace parses r⟩
  | unclosed => cases hout
  | word hparse heval hspace hword hrest ih =>
    obtain ⟨rest, he, hsame⟩ := ih hout
    have hpos := Nat.ne_of_gt (parsedWord_pos hspace hword)
    refine ⟨rest, ?_, hsame⟩
    rw [scanWords_word heval hword, he, if_neg hpos]
    rfl

theorem WordsAlike.length_le : r.length ≤ z.length := by
  generalize hout : Except.ok r = out at h
  induction h with
  | ended =>
    cases hout
    exact Nat.le_refl _
  | unclosed => cases hout
  | @word z n ws out hparse heval hspace hword hrest ih =>
    have hle := ih hout
    have hafter := afterSpace_length_le z
    rw [length_drop] at hle
    omega

theorem WordsAlike.length_lt (htoken : AtToken z)
    (hend : ¬AtTerminator z) : r.length < z.length := by
  have hsame := htoken.afterSpace_eq
  cases h with
  | ended h => exact absurd (h.elim And.left fun h' => hsame ▸ h') hend
  | word hparse heval hspace hword hrest =>
    have hpos := parsedWord_pos hspace hword
    have hle := hrest.length_le
    have hlen := length_pos_of_ne_nil (ne_nil_of_not_atTerminator hend)
    rw [length_drop, hsame] at hle
    omega

end

end Alike

def SameWords (r r' : List WordSpan × Except Bytes Bytes) : Prop :=
  match r.2, r'.2 with
  | .ok _, .ok _ => r.1 = r'.1
  | .error _, .error _ => True
  | _, _ => False

theorem wordsAlike_of_sameWords (h : SameWords (parseWordSpans z) (scanWords z)) :
    ∃ ws out, WordsAlike z ws out := by
  induction hn : z.length using Nat.strongRecOn generalizing z with
  | ind k ih =>
    by_cases hspace : AtTerminator (afterSpace z)
    · exact ⟨[], _, .ended (.inr hspace)⟩
    by_cases hparse : AtTerminator z
    · by_cases heval : CommandEnd z
      · exact ⟨[], _, .ended (.inl ⟨hparse, heval⟩)⟩
      · rw [parseWordSpans_stop hparse] at h
        rcases hword : nextWord (afterSpace z) true with e | n
        · rw [scanWords_unmatched heval hword] at h
          exact h.elim
        · rw [scanWords_word heval hword, if_neg (Nat.ne_of_gt (parsedWord_pos hspace hword))] at h
          rcases hrest : (scanWords ((afterSpace z).drop n)).2 with p | r
          · simp [SameWords, hrest] at h
          · simp [SameWords, hrest] at h
    · rcases hword : nextWord (afterSpace z) true with e | n
      · by_cases heval : CommandEnd z
        · rw [parseWordSpans_unmatched hparse hspace hword, scanWords_stop heval] at h
          exact h.elim
        · exact ⟨[], _, .unclosed hparse heval hspace hword⟩
      · have hpos := parsedWord_pos hspace hword
        rw [parseWordSpans_word hparse hspace hword] at h
        by_cases heval : CommandEnd z
        · rw [scanWords_stop heval] at h
          rcases hrest : (parseWordSpans ((afterSpace z).drop n)).2 with p | r
          · simp [SameWords, hrest] at h
          · simp [SameWords, hrest] at h
        · rw [scanWords_word heval hword, if_neg (Nat.ne_of_gt hpos)] at h
          have hlt : ((afterSpace z).drop n).length < k := by
            have hlen := length_pos_of_ne_nil (ne_nil_of_not_atTerminator hspace)
            have hle := afterSpace_length_le z
            rw [length_drop]
            omega
          have htail : SameWords (parseWordSpans ((afterSpace z).drop n))
              (scanWords ((afterSpace z).drop n)) := by
            rcases hp : parseWordSpans ((afterSpace z).drop n) with ⟨ws, p | r⟩
            · rcases he : scanWords ((afterSpace z).drop n) with ⟨ws', p' | r'⟩
              · trivial
              · simp [SameWords, hp, he] at h
            · rcases he : scanWords ((afterSpace z).drop n) with ⟨ws', p' | r'⟩
              · simp [SameWords, hp, he] at h
              · simpa [SameWords, hp, he] using h
          obtain ⟨ws, out, hrest⟩ := ih _ hlt htail rfl
          exact ⟨_, out, .word hparse heval hspace hword hrest⟩

/-! ## Where the boundaries begin -/

def Boundaries.first (b : Boundaries) : Option Bytes :=
  match b.1 with
  | (w :: _) :: _ => some w.1
  | _ => b.2.map Prod.fst

theorem first_emitted (w : WordSpan) (ws : List WordSpan) (b : Boundaries) :
    Boundaries.first (emitted (w :: ws) ++ b.1, b.2) = some w.1 := rfl

theorem parseSpans_first (hcomment : (lead z).head? ≠ some chHash)
    (hend : ¬AtTerminator (afterSpace (lead z))) :
    (parseSpans z).first = some (afterSpace (lead z)) := by
  rw [parseSpans_command hcomment hend]
  rcases hwords : parseWordSpans (afterSpace (lead z)) with ⟨ws, p | zEnd⟩
  · rfl
  · obtain ⟨n, ws', rfl⟩ := exists_word_of_parse (afterSpace_atToken _) hend hwords
    exact first_emitted _ _ _

theorem parseSpans_first_le (z : Bytes) : ∀ p ∈ (parseSpans z).first, p.length ≤ z.length := by
  have hdrop : ∀ {z z' : Bytes} (n : ℕ), z'.length ≤ z.length →
      (∀ p ∈ (parseSpans (z'.drop n)).first, p.length ≤ (z'.drop n).length) →
      ∀ p ∈ (parseSpans (z'.drop n)).first, p.length ≤ z.length := by
    intro z z' n hle ih p hp
    have hlen := ih p hp
    rw [length_drop] at hlen
    omega
  induction z using call_cases with
  | done z h =>
    rw [parseSpans_done h]
    exact fun p hp => by cases hp
  | comment z rest h ih =>
    rw [parseSpans_comment h]
    exact hdrop 1 (Nat.le_trans (parseComment_length_le _) (lead_length_le z)) ih
  | empty z hne hend ih =>
    rw [parseSpans_empty hend]
    exact hdrop 1 (Nat.le_trans (afterSpace_length_le _) (lead_length_le z)) ih
  | command z hcomment hend _ =>
    rw [parseSpans_first hcomment hend]
    rintro p ⟨⟩
    exact Nat.le_trans (afterSpace_length_le _) (lead_length_le z)

section Evaluator

variable (parses : Bytes → Bool) {z : Bytes}

theorem AtToken.skipToCommand_eq (h : AtToken z) (hend : ¬AtTerminator z)
    (hcomment : z.head? ≠ some chHash) : skipToCommand z = z := by
  rw [skipToCommand_of_ne_semicolon (head_ne_semicolon hend), h.afterSpace_eq]
  rcases z with _ | ⟨c, rest⟩
  · rfl
  · exact if_neg (by simpa using hcomment)

theorem AtToken.not_commandEnd (h : AtToken z) (hend : ¬AtTerminator z) : ¬CommandEnd z := by
  have hne := ne_nil_of_not_atTerminator hend
  simp [CommandEnd, hne, head_ne_semicolon hend, h.not_endOfLine hne]

theorem exists_word_of_scan {ws : List WordSpan} {rest : Bytes} (htoken : AtToken z)
    (hend : ¬AtTerminator z) (h : scanWords z = (ws, .ok rest)) : ∃ n ws', ws = (z, n) :: ws' := by
  have heval := htoken.not_commandEnd hend
  have hsame := htoken.afterSpace_eq
  rcases hword : nextWord (afterSpace z) true with e | n
  · rw [scanWords_unmatched heval hword] at h
    cases h
  · have hpos := Nat.ne_of_gt (parsedWord_pos (hsame.symm ▸ hend) hword)
    rw [scanWords_word heval hword, if_neg hpos, hsame, Prod.mk.injEq] at h
    exact ⟨n, _, h.1.symm⟩

theorem evalSpans_first (h : AtToken z) (hend : ¬AtTerminator z)
    (hcomment : z.head? ≠ some chHash) : (evalSpans parses z).first = some z := by
  have hskip := h.skipToCommand_eq hend hcomment
  have hne : skipToCommand z ≠ [] := by
    rw [hskip]
    exact ne_nil_of_not_atTerminator hend
  rcases hscan : scanWords (skipToCommand z) with ⟨ws, p | rest⟩
  · rw [evalSpans_unclosed parses hne (congrArg Prod.snd hscan), hskip]
    rfl
  · by_cases hall : ∀ w ∈ ws, parses w.bytes = true
    · obtain ⟨n, ws', rfl⟩ := exists_word_of_scan h hend (hskip ▸ hscan)
      rw [evalSpans_command parses hne hscan hall]
      exact first_emitted _ _ _
    · obtain ⟨w, hw, hbad⟩ := evalSpans_badWord parses hne hscan hall
      rw [hbad, hskip]
      rfl

theorem AtToken.not_atTerminator (h : AtToken z) (hne : z ≠ [])
    (hsemi : z.head? ≠ some chSemicolon) : ¬AtTerminator z :=
  fun hend => (h.eq_or_of_atTerminator hend).elim hne hsemi

theorem skipToCommand_head (z : Bytes) : (skipToCommand z).head? ≠ some chHash := by
  induction z using skip_cases with
  | done z h => simp [skipToCommand_done h]
  | command z c rest h hc => simpa [skipToCommand_command h hc] using hc
  | comment z rest h ih => rwa [skipToCommand_comment h]

theorem evalSpans_first_le (z : Bytes) : ∀ p ∈ (evalSpans parses z).first, p.length ≤ z.length := by
  induction hn : z.length using Nat.strongRecOn generalizing z with
  | ind k ih =>
    have hle : (skipToCommand z).length ≤ z.length :=
      Nat.le_trans (skipToCommand_length_le z)
        (Nat.le_trans (afterSpace_length_le _) (skipSemicolon_length_le z))
    have htoken := skipToCommand_atToken z
    rcases hskip : skipToCommand z with _ | ⟨c, rest⟩
    · rw [evalSpans_done parses hskip]
      exact fun p hp => by cases hp
    · rw [hskip] at hle htoken
      rw [length_cons] at hle
      by_cases hc : c = chSemicolon
      · subst hc
        rw [evalSpans_of_skip_semicolon parses hskip, evalSpans_semicolon]
        intro p hp
        have hlen := ih rest.length (by omega) rest rfl p hp
        omega
      · have hhead := skipToCommand_head z
        rw [hskip] at hhead
        have hend := htoken.not_atTerminator (cons_ne_nil _ _) (by simpa using hc)
        rw [evalSpans_congr parses (hskip.trans (htoken.skipToCommand_eq hend hhead).symm),
          evalSpans_first parses htoken hend hhead]
        rintro p ⟨⟩
        rw [length_cons]
        omega

theorem evalSpans_lead (z : Bytes) : evalSpans parses (lead z) = evalSpans parses z := by
  induction z with
  | nil => rfl
  | cons c rest ih =>
    by_cases hc : isLead c = true
    · rw [lead_of_isLead hc, ih]
      by_cases hspace : isSpace c = true
      · exact (evalSpans_space parses hspace rest).symm
      · have hsemi : c = chSemicolon := by simpa [isLead, hspace] using hc
        rw [hsemi, evalSpans_semicolon]
    · rw [lead, dropWhile_cons_of_neg hc]

end Evaluator

/-! ## Comments -/

/-- No command begins before the first newline that no backslash hides.  The evaluator's
comment ends at every newline; the flag tells that the text is inside of it. -/
def quiet : Bool → Bytes → Bool
  | _, [] => true
  | inComment, c :: rest =>
    if c == chNewline then true
    else if c == chBackslash then
      match rest with
      | [] => inComment
      | d :: rest' => if d == chNewline then quiet false rest' else inComment && quiet true rest'
    else if inComment || c == chHash then quiet true rest
    else isLead c && quiet false rest

def resume (inComment : Bool) (z : Bytes) : Bytes := if inComment then skipComment z else z

@[simp] theorem resume_true (z : Bytes) : resume true z = skipComment z := rfl

@[simp] theorem resume_false (z : Bytes) : resume false z = z := rfl

theorem parseComment_newline (z : Bytes) : parseComment (chNewline :: z) = chNewline :: z := by
  rw [parseComment.eq_def]
  rfl

theorem parseComment_escape (d : Byte) (z : Bytes) :
    parseComment (chBackslash :: d :: z) = parseComment z := by
  rw [parseComment.eq_def]
  rfl

theorem parseComment_byte (hnewline : c ≠ chNewline) (hback : c ≠ chBackslash) (z : Bytes) :
    parseComment (c :: z) = parseComment z := by
  rw [parseComment.eq_def]
  simp [hnewline, hback]

section Comments

variable (parses : Bytes → Bool)

theorem evalSpans_skipComment_newline (z : Bytes) :
    evalSpans parses (skipComment (chNewline :: z)) = evalSpans parses z := by
  rw [skipComment, if_pos (by simp [endOfLine])]
  exact evalSpans_space parses isSpace_newline z

theorem evalSpans_skipComment {c : Byte} (hc : c ≠ chNewline) (z : Bytes) :
    evalSpans parses (skipComment (c :: z)) = evalSpans parses (skipComment z) := by
  rw [skipComment]
  by_cases hspace : isSpace c = true
  · have hline : endOfLine (c :: z) = endOfLine z := by simp [endOfLine, hc, hspace]
    rw [hline]
    by_cases hend : endOfLine z = true
    · rw [if_pos hend, evalSpans_space parses hspace]
      rcases z with _ | ⟨d, rest⟩
      · rfl
      · rw [skipComment, if_pos hend]
    · rw [if_neg hend]
  · rw [if_neg (by simp [endOfLine, hc, hspace])]

theorem exists_first_of_command {z : Bytes} (h : AtToken z) (hend : ¬AtTerminator z)
    (hcomment : z.head? ≠ some chHash) :
    ∃ p, (evalSpans parses z).first = some p ∧ ((parseComment z).drop 1).length < p.length := by
  refine ⟨z, evalSpans_first parses h hend hcomment, ?_⟩
  have hlen := length_pos_of_ne_nil (ne_nil_of_not_atTerminator hend)
  have hle := parseComment_length_le z
  rw [length_drop]
  omega

/-- The parser's comment ends where the evaluator's commands go on, or the evaluator has found
a command by then. -/
theorem evalSpans_quiet (inComment : Bool) (z : Bytes) :
    if quiet inComment z then
      evalSpans parses (resume inComment z) = evalSpans parses ((parseComment z).drop 1)
    else
      ∃ p, (evalSpans parses (resume inComment z)).first = some p ∧
        ((parseComment z).drop 1).length < p.length := by
  have hne : chBackslash ≠ chNewline := by decide
  fun_induction quiet inComment z with
  | case1 inComment =>
    rw [if_pos rfl]
    cases inComment with
    | true => rfl
    | false => rfl
  | case2 inComment c rest hnewline =>
    obtain rfl : c = chNewline := by simpa using hnewline
    rw [if_pos rfl, parseComment_newline, drop_one, tail_cons]
    cases inComment with
    | true => exact evalSpans_skipComment_newline parses rest
    | false => exact evalSpans_space parses isSpace_newline rest
  | case3 inComment c hnewline hback =>
    obtain rfl : c = chBackslash := by simpa using hback
    cases inComment with
    | true => exact evalSpans_skipComment parses hne []
    | false => exact exists_first_of_command parses .lone (by decide) (by decide)
  | case4 inComment c hnewline hback d rest hd ih =>
    obtain rfl : c = chBackslash := by simpa using hback
    obtain rfl : d = chNewline := by simpa using hd
    have hresume : evalSpans parses (resume inComment (chBackslash :: chNewline :: rest)) =
        evalSpans parses (resume false rest) := by
      cases inComment with
      | true =>
        exact (evalSpans_skipComment parses hne _).trans (evalSpans_skipComment_newline parses rest)
      | false => exact evalSpans_continuation parses rest
    rw [hresume, parseComment_escape]
    exact ih
  | case5 inComment c hnewline hback d rest hd ih =>
    obtain rfl : c = chBackslash := by simpa using hback
    have hd' : d ≠ chNewline := by simpa using hd
    cases inComment with
    | true =>
      have hresume : evalSpans parses (resume true (chBackslash :: d :: rest)) =
          evalSpans parses (resume true rest) :=
        (evalSpans_skipComment parses hne _).trans (evalSpans_skipComment parses hd' rest)
      rw [hresume, parseComment_escape]
      exact ih
    | false =>
      rw [resume_false]
      exact exists_first_of_command parses (.escape hd')
        (not_atTerminator_of_not_isLead (by decide) _) (fun hhash => by cases hhash)
  | case6 inComment c rest hnewline hback hhash ih =>
    have hnewline' : c ≠ chNewline := by simpa using hnewline
    have hresume : evalSpans parses (resume inComment (c :: rest)) =
        evalSpans parses (resume true rest) := by
      cases inComment with
      | true => exact evalSpans_skipComment parses hnewline' rest
      | false =>
        obtain rfl : c = chHash := by simpa using hhash
        exact evalSpans_hash parses rest
    rw [hresume, parseComment_byte hnewline' (by simpa using hback)]
    exact ih
  | case7 inComment c rest hnewline hback hhash ih =>
    have hnewline' : c ≠ chNewline := by simpa using hnewline
    have hback' : c ≠ chBackslash := by simpa using hback
    simp only [Bool.or_eq_true, beq_iff_eq, not_or, Bool.not_eq_true] at hhash
    obtain ⟨rfl, hhash⟩ := hhash
    by_cases hlead : isLead c = true
    · have hresume : evalSpans parses (resume false (c :: rest)) =
          evalSpans parses (resume false rest) := by
        rw [resume_false, resume_false, ← evalSpans_lead, lead_of_isLead hlead, evalSpans_lead]
      rw [hresume, parseComment_byte hnewline' hback', hlead, Bool.true_and]
      exact ih
    · rw [Bool.not_eq_true] at hlead
      have hspace : isSpace c = false := (Bool.or_eq_false_iff.mp hlead).1
      rw [hlead, Bool.false_and, if_neg Bool.false_ne_true, resume_false]
      exact exists_first_of_command parses (.byte hspace hback')
        (not_atTerminator_of_not_isLead hlead _) (by simpa using hhash)

end Comments

end Th8
