import Th8.Eval.Boundaries
import Th8.Eval.BuilderAgreement

/-!
# The parse errors of the evaluator

The words at which `th8SplitCommand` reports a parse error are told from the text and the
registered expansion prefixes: no interpreter evaluates such a word, and one in which scripts,
variables and operators have values evaluates every other word.
-/

namespace Th8

open Support List

variable {σ : Type}

section Words

variable (env : Env σ) (s : σ)

/-- `th8SplitCommand` meets no parse error in the word. -/
def wordOk (zWord : Bytes) : Bool :=
  match checkExpansionPrefix env s zWord with
  | .error _ => false
  | .ok expansion =>
    wordParses ((wordRest zWord expansion).length + 1) (wordRest zWord expansion)

def EvaluatesLiterally (zWord : Bytes) : Prop :=
  ∀ expansion ∈ (checkExpansionPrefix env s zWord).toOption, IsLiteral (wordRest zWord expansion)

instance (zWord : Bytes) : Decidable (EvaluatesLiterally env s zWord) :=
  inferInstanceAs (Decidable (∀ expansion ∈ (checkExpansionPrefix env s zWord).toOption,
    IsLiteral (wordRest zWord expansion)))

end Words

structure Calm (env : Env σ) : Prop where
  ready : ∀ s, ∃ s', env.ready s = .ok s'
  getVar : ∀ s zName, ∃ v, env.getVar s zName = .ok v
  eval : ∀ s script, ∃ r, env.eval s script = .ok r
  expand : ∀ s zTag xExpand, env.findExpansion s zTag = some xExpand → ∀ v, ∃ l, xExpand v = .ok l

section Splitting

variable {env : Env σ} {s : σ}

theorem checkExpansionPrefix_congr {s' : σ} (h : env.findExpansion s' = env.findExpansion s)
    (zWord : Bytes) : checkExpansionPrefix env s' zWord = checkExpansionPrefix env s zWord := by
  unfold checkExpansionPrefix
  rw [h]

theorem splitWord_fails {zWord : Bytes} (h : wordOk env s zWord = false) (b : ArgBuffers) :
    ∃ e, splitWord env s b zWord = .error e := by
  unfold wordOk at h
  unfold splitWord
  rcases hcheck : checkExpansionPrefix env s zWord with e | expansion
  · exact ⟨e, rfl⟩
  · rw [hcheck] at h
    obtain ⟨e, he⟩ := substWord_fails h env s
    rcases expansion with _ | ⟨nTag, xExpand⟩
    · rw [wordRest] at he
      exact ⟨e, by rw [ok_bind]; simp only [he]; rfl⟩
    · rw [wordRest] at he
      exact ⟨e, by rw [ok_bind]; simp only [he]; rfl⟩

theorem splitWord_succeeds (hcalm : Calm env) {zWord : Bytes} {e : Failure} {b : ArgBuffers}
    (h : wordOk env s zWord = true) (hfail : splitWord env s b zWord = .error e) :
    e = .static "out of memory" := by
  unfold wordOk at h
  unfold splitWord at hfail
  rcases hcheck : checkExpansionPrefix env s zWord with e' | expansion
  · rw [hcheck] at h
    cases h
  · rw [hcheck] at h hfail
    rw [ok_bind] at hfail
    rcases expansion with _ | ⟨nTag, xExpand⟩
    · dsimp only at hfail
      rcases hsubst : substWord env (zWord.length + 1) s zWord with e' | r
      · rw [hsubst, error_bind, Except.error.injEq] at hfail
        exact hfail ▸ substWord_succeeds hcalm.getVar hcalm.eval s h hsubst
      · rw [hsubst] at hfail
        cases hfail
    · dsimp only at hfail
      dsimp only [wordRest] at h
      rcases hsubst : substWord env ((zWord.drop (nTag + 2)).length + 1) s
          (zWord.drop (nTag + 2)) with e' | r
      · rw [hsubst, error_bind, Except.error.injEq] at hfail
        exact hfail ▸ substWord_succeeds hcalm.getVar hcalm.eval s h hsubst
      · obtain ⟨zTag, hfind⟩ := checkExpansionPrefix_some hcheck
        obtain ⟨l, hl⟩ := hcalm.expand s zTag xExpand hfind r.1
        rw [hsubst, ok_bind, hl] at hfail
        cases hfail

/-! ## The word loop -/

variable {fuel : ℕ} {z : Bytes}

theorem splitWords_round (hz : z ≠ []) (s : σ) (b : ArgBuffers) :
    splitWords env (fuel + 1) s z b = (do
      let s₁ ← env.ready s
      if (afterSpace z).length = 0 then return (b, s₁)
      let nWord ← nextWord (afterSpace z) false
      if nWord = 0 then return (b, s₁)
      let (b', s₂) ← splitWord env s₁ b ((afterSpace z).take nWord)
      splitWords env fuel s₂ ((afterSpace z).drop nWord) b') := by
  rcases z with _ | ⟨c, rest⟩
  · exact absurd rfl hz
  · rfl

theorem round_of_word (hz : afterSpace z ≠ []) (hfuel : z.length ≤ fuel) :
    z ≠ [] ∧ ∃ k, fuel = k + 1 := by
  have hne : z ≠ [] := by
    rintro rfl
    exact hz rfl
  exact ⟨hne, Nat.exists_eq_succ_of_ne_zero
    (Nat.ne_of_gt (Nat.lt_of_lt_of_le (length_pos_of_ne_nil hne) hfuel))⟩

variable (hfixed : ∀ s', env.findExpansion s' = env.findExpansion s)

include hfixed

theorem wordOk_congr (s' : σ) (zWord : Bytes) : wordOk env s' zWord = wordOk env s zWord := by
  rw [wordOk, checkExpansionPrefix_congr (hfixed s'), wordOk]

/-- The loop fails where a word does not parse. -/
theorem splitWords_fails {rest p : Bytes} (s' : σ) (b : ArgBuffers) (hfuel : z.length ≤ fuel)
    (h : ((splitWordScanner (wordOk env s) rest).run z).2 = some p) :
    ∃ e, splitWords env fuel s' z b = .error e := by
  induction z using word_cases generalizing fuel s' b with
  | done z hz =>
    rw [splitWords_stop _ _ hz] at h
    cases h
  | unmatched z e hz hword =>
    obtain ⟨hne, k, rfl⟩ := round_of_word hz hfuel
    rw [splitWords_round hne]
    rcases env.ready s' with e' | s₁
    · exact ⟨e', rfl⟩
    · exact ⟨e, by simp [hz, hword]⟩
  | word z n hz hword ih =>
    have hpos := nextWord_pos (afterSpace_atToken z) hz (fun hf => by cases hf) hword
    have hlen := length_pos_of_ne_nil hz
    have hle := afterSpace_length_le z
    obtain ⟨hne, k, rfl⟩ := round_of_word hz hfuel
    rw [splitWords_round hne]
    rw [splitWords_word _ _ hz hword (Nat.ne_of_gt hpos)] at h
    rcases env.ready s' with e' | s₁
    · exact ⟨e', rfl⟩
    · rw [ok_bind, if_neg (Nat.ne_of_gt hlen), hword, ok_bind, if_neg (Nat.ne_of_gt hpos)]
      by_cases hok : wordOk env s ((afterSpace z).take n) = true
      · rw [if_pos hok] at h
        rcases splitWord env s₁ b ((afterSpace z).take n) with e' | ⟨b', s₂⟩
        · exact ⟨e', rfl⟩
        · refine ih s₂ b' ?_ h
          rw [length_drop]
          omega
      · have hbad : wordOk env s₁ ((afterSpace z).take n) = false := by
          simpa [wordOk_congr hfixed s₁] using hok
        obtain ⟨e', he'⟩ := splitWord_fails hbad b
        exact ⟨e', by rw [he']; rfl⟩

/-- Where every word parses, only memory can be lacking. -/
theorem splitWords_succeeds (hcalm : Calm env) {rest : Bytes} {e : Failure} (s' : σ)
    (b : ArgBuffers) (hfuel : z.length ≤ fuel)
    (h : ((splitWordScanner (wordOk env s) rest).run z).2 = none)
    (hfail : splitWords env fuel s' z b = .error e) : e = .static "out of memory" := by
  induction z using word_cases generalizing fuel s' b with
  | done z hz =>
    rcases hz' : z with _ | ⟨c, rest⟩
    · rw [hz', splitWords.eq_def] at hfail
      cases hfail
    · have hpos : fuel ≠ 0 := by
        rintro rfl
        rw [hz'] at hfuel
        cases hfuel
      obtain ⟨k, rfl⟩ := Nat.exists_eq_succ_of_ne_zero hpos
      obtain ⟨s₁, hs₁⟩ := hcalm.ready s'
      rw [splitWords_round (by simp [hz']), hs₁, ok_bind, if_pos (by simp [hz])] at hfail
      cases hfail
  | unmatched z e' hz hword =>
    have hstep : (splitWordScanner (wordOk env s) rest).step z = _ := if_neg hz
    simp only [hword] at hstep
    rw [Scanner.run_of_stop _ hstep] at h
    cases h
  | word z n hz hword ih =>
    have hpos := nextWord_pos (afterSpace_atToken z) hz (fun hf => by cases hf) hword
    have hlen := length_pos_of_ne_nil hz
    have hle := afterSpace_length_le z
    obtain ⟨hne, k, rfl⟩ := round_of_word hz hfuel
    obtain ⟨s₁, hs₁⟩ := hcalm.ready s'
    rw [splitWords_round hne, hs₁, ok_bind, if_neg (Nat.ne_of_gt hlen), hword, ok_bind,
      if_neg (Nat.ne_of_gt hpos)] at hfail
    rw [splitWords_word _ _ hz hword (Nat.ne_of_gt hpos)] at h
    by_cases hok : wordOk env s ((afterSpace z).take n) = true
    · rw [if_pos hok] at h
      rcases hword' : splitWord env s₁ b ((afterSpace z).take n) with e' | ⟨b', s₂⟩
      · rw [hword', error_bind, Except.error.injEq] at hfail
        exact hfail ▸ splitWord_succeeds hcalm (by rw [wordOk_congr hfixed]; exact hok) hword'
      · rw [hword', ok_bind] at hfail
        refine ih s₂ b' ?_ h hfail
        rw [length_drop]
        omega
    · rw [if_neg hok] at h
      cases h

end Splitting

theorem WordSpan.bytes_append {z rest : Bytes} {n : ℕ} (h : n ≤ z.length) :
    WordSpan.bytes (z ++ rest, n) = z.take n :=
  take_append_of_le_length h

theorem wordScanner_of_splitWords {parses : Bytes → Bool} {z rest : Bytes} {ws : List WordSpan}
    (h : (splitWordScanner parses rest).run z = (ws, none)) :
    wordScanner.run z = (ws.map WordSpan.bytes, none) := by
  induction z using word_cases generalizing ws with
  | done z hz =>
    rw [splitWords_stop _ _ hz] at h
    cases h
    exact wordScanner_run_stop hz
  | unmatched z e hz hword =>
    have hstep : (splitWordScanner parses rest).step z = _ := if_neg hz
    simp only [hword] at hstep
    rw [Scanner.run_of_stop _ hstep] at h
    cases h
  | word z n hz hword ih =>
    have hpos := nextWord_pos (afterSpace_atToken z) hz (fun hf => by cases hf) hword
    rw [splitWords_word _ _ hz hword (Nat.ne_of_gt hpos)] at h
    by_cases hok : parses ((afterSpace z).take n) = true
    · rw [if_pos hok, Prod.mk.injEq] at h
      rw [wordScanner_run_word hz hword, ih (Prod.ext rfl h.2), ← h.1, map_cons,
        WordSpan.bytes_append (nextWord_le hword)]
    · rw [if_neg hok] at h
      cases h

/-- A script in which the evaluator finds no parse error dispatches the commands found. -/
theorem dispatched_of_evalSpans {parses : Bytes → Bool} {script : Bytes}
    (h : (evalSpans parses script).2 = none) :
    dispatched script = ((evalSpans parses script).1.map (List.map WordSpan.bytes), none) := by
  induction hn : script.length using Nat.strongRecOn generalizing script with
  | ind k ih =>
    by_cases hne : skipToCommand script = []
    · rw [evalSpans_done parses hne, dispatched_done hne]
      rfl
    rcases hscan : scanWords (skipToCommand script) with ⟨ws, p | rest⟩
    · rw [evalSpans_unclosed parses hne (congrArg Prod.snd hscan)] at h
      cases h
    by_cases hall : ∀ w ∈ ws, parses w.bytes = true
    · have hrest := scanCommand_of_ok (congrArg Prod.snd hscan)
      have hsplit := splitWords_eq_checkWords parses hscan
      rw [checkWords_of_all hall] at hsplit
      have hwords : rawWords (commandText (skipToCommand script) rest) =
          .ok (ws.map WordSpan.bytes) := by
        rw [rawWords, wordScanner_of_splitWords hsplit]
      have hlt := scanCommand_skip_length_lt hne hrest
      rw [evalSpans_command parses hne hscan hall] at h ⊢
      have hstep := evalScanner_step_command rfl hne hrest hwords
      rw [dispatched, evalScanner.run_of_next hstep]
      have htail := ih _ (hn ▸ hlt) h rfl
      rw [dispatched] at htail
      rw [htail, emitted]
      by_cases hnil : ws = []
      · simp [hnil]
      · simp [hnil]
    · obtain ⟨w, -, hbad⟩ := evalSpans_badWord parses hne hscan hall
      rw [hbad] at h
      cases h

end Th8
