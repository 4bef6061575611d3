import Th8.Eval.ParseErrors
import Th8.Eval.ParserBoundaries

/-!
# The parser for tools against the evaluator

The scripts whose commands, words and parse errors `th8ParseCommand` finds where the evaluator
does are singled out, word by word.  The expansion prefixes that are registered stay the same
while the script runs.
-/

namespace Th8

open Support List

variable {σ : Type} (env : Env σ) (s : σ)

/-- The parser and the evaluator find the same commands with the same words and the same parse
error, and a word that the parser takes for simple is copied. -/
def ParserAgrees (script : Bytes) : Prop :=
  parseSpans script = evalSpans (wordOk env s) script ∧
    ∀ aWord ∈ (parseScript script).1, ∀ w ∈ aWord,
      w.isSimple = true → EvaluatesLiterally env s w.span.bytes

def SimpleLiteral (ws : List WordSpan) : Prop :=
  ∀ w ∈ ws, isSimpleWord w.bytes = true → EvaluatesLiterally env s w.bytes

def SpansAgree (z : Bytes) : Prop :=
  parseSpans z = evalSpans (wordOk env s) z ∧ ∀ ws ∈ (parseSpans z).1, SimpleLiteral env s ws

theorem isSimple_of_mem_parseScript {script : Bytes} :
    ∀ aWord ∈ (parseScript script).1, ∀ w ∈ aWord, w.isSimple = isSimpleWord w.span.bytes := by
  have hcall : ∀ z p, parseCommand 1 z = (p, none) →
      ∀ w ∈ p.aWord, w.isSimple = isSimpleWord w.span.bytes := by
    intro z p hp w hw
    have hfound := parseCommand_found 1 z
    rw [hp] at hfound
    cases hfound with
    | done _ hwords =>
      rw [hwords] at hw
      exact absurd hw not_mem_nil
    | comment _ hwords =>
      rw [hwords] at hw
      exact absurd hw not_mem_nil
    | command _ _ hwords => exact isSimple_of_mem (by rw [hwords]; exact hw)
  induction hn : script.length using Nat.strongRecOn generalizing script with
  | ind k ih =>
    intro aWord haWord w hw
    by_cases hne : script = []
    · rw [hne] at haWord
      exact absurd haWord not_mem_nil
    rcases hp : parseCommand 1 script with ⟨p, _ | e⟩
    · rw [parseScriptScanner_step hne hp, mem_append] at haWord
      rcases haWord with haWord | haWord
      · by_cases hnil : p.aWord = []
        · simp [hnil] at haWord
        · obtain rfl : aWord = p.aWord := by simpa [hnil] using haWord
          exact hcall script p hp w hw
      · have hlt := parseCommand_length_lt hne (congrArg Prod.snd hp)
        rw [hp] at hlt
        exact ih _ (hn ▸ hlt) rfl aWord haWord w hw
    · rw [parseScriptScanner_fail hne hp] at haWord
      exact absurd haWord not_mem_nil

theorem parserAgrees_iff_spansAgree (script : Bytes) :
    ParserAgrees env s script ↔ SpansAgree env s script := by
  refine and_congr_right fun _ => ?_
  simp only [parseSpans, SimpleLiteral, forall_mem_map]
  constructor
  · intro h aWord haWord w hw hsimple
    apply h aWord haWord w hw
    rw [isSimple_of_mem_parseScript aWord haWord w hw]
    exact hsimple
  · intro h aWord haWord w hw hsimple
    apply h aWord haWord w hw
    rw [← isSimple_of_mem_parseScript aWord haWord w hw]
    exact hsimple

/-! ## The scripts that are read alike -/

/-- The script is read alike, command by command.  A comment hides the same text from both.  No
comment begins behind a continuation line.  The words of a command end alike, they meet no
parse error in their evaluation, and those without a dollar sign, an open bracket and a
backslash and those that begin with an open brace are literal. -/
inductive ReadAlike : Bytes → Prop where
  | done {z : Bytes} (h : lead z = []) : ReadAlike z
  | comment {z rest : Bytes} (h : lead z = chHash :: rest) (hquiet : quiet true rest = true)
      (hrest : ReadAlike ((parseComment (lead z)).drop 1)) : ReadAlike z
  | empty {z : Bytes} (hend : AtTerminator (afterSpace (lead z)))
      (hrest : ReadAlike ((afterSpace (lead z)).drop 1)) : ReadAlike z
  | unclosed {z p : Bytes} {ws : List WordSpan} (hend : ¬AtTerminator (afterSpace (lead z)))
      (hcomment : (afterSpace (lead z)).head? ≠ some chHash)
      (hwords : WordsAlike (afterSpace (lead z)) ws (.error p)) : ReadAlike z
  | command {z rest : Bytes} {ws : List WordSpan} (hend : ¬AtTerminator (afterSpace (lead z)))
      (hcomment : (afterSpace (lead z)).head? ≠ some chHash)
      (hwords : WordsAlike (afterSpace (lead z)) ws (.ok rest))
      (hparse : ∀ w ∈ ws, wordOk env s w.bytes = true) (hsimple : SimpleLiteral env s ws)
      (hrest : ReadAlike rest) : ReadAlike z

section Commands

variable {z : Bytes}

theorem lead_head_of_afterSpace (hcomment : (afterSpace (lead z)).head? ≠ some chHash) :
    (lead z).head? ≠ some chHash := by
  intro hhash
  obtain ⟨rest, hrest⟩ := head?_eq_some_iff.mp hhash
  rw [hrest, (AtToken.byte (by decide) (by decide)).afterSpace_eq] at hcomment
  exact hcomment rfl

variable (parses : Bytes → Bool)

theorem evalSpans_afterLead (z : Bytes) :
    evalSpans parses z = evalSpans parses (afterSpace (lead z)) := by
  rw [evalSpans_afterSpace, evalSpans_lead]

variable (hend : ¬AtTerminator (afterSpace (lead z)))
  (hcomment : (afterSpace (lead z)).head? ≠ some chHash)

include hend hcomment

theorem skipToCommand_afterLead : skipToCommand (afterSpace (lead z)) = afterSpace (lead z) :=
  (afterSpace_atToken _).skipToCommand_eq hend hcomment

theorem skipToCommand_afterLead_ne_nil : skipToCommand (afterSpace (lead z)) ≠ [] := by
  rw [skipToCommand_afterLead hend hcomment]
  exact ne_nil_of_not_atTerminator hend

variable {ws : List WordSpan}

theorem evalSpans_lead_unclosed {p : Bytes} (h : scanWords (afterSpace (lead z)) = (ws, .error p)) :
    evalSpans parses z = ([], some (afterSpace (lead z), p)) := by
  have hskip := skipToCommand_afterLead hend hcomment
  rw [evalSpans_afterLead, evalSpans_unclosed parses (p := p), hskip]
  · exact skipToCommand_afterLead_ne_nil hend hcomment
  · rw [hskip, h]

theorem evalSpans_lead_command {rest : Bytes} (h : scanWords (afterSpace (lead z)) = (ws, .ok rest))
    (hall : ∀ w ∈ ws, parses w.bytes = true) :
    evalSpans parses z = (ws :: (evalSpans parses rest).1, (evalSpans parses rest).2) := by
  obtain ⟨n, ws', rfl⟩ := exists_word_of_scan (afterSpace_atToken _) hend h
  have hskip := skipToCommand_afterLead hend hcomment
  rw [evalSpans_afterLead]
  exact evalSpans_command parses (skipToCommand_afterLead_ne_nil hend hcomment)
    (hskip.symm ▸ h) hall

theorem evalSpans_lead_badWord {rest : Bytes} (h : scanWords (afterSpace (lead z)) = (ws, .ok rest))
    (hall : ¬∀ w ∈ ws, parses w.bytes = true) :
    ∃ w ∈ ws, evalSpans parses z = ([], some (afterSpace (lead z), w.1)) := by
  have hskip := skipToCommand_afterLead hend hcomment
  obtain ⟨w, hw, hbad⟩ := evalSpans_badWord parses
    (skipToCommand_afterLead_ne_nil hend hcomment) (hskip.symm ▸ h) hall
  exact ⟨w, hw, by rw [evalSpans_afterLead, hbad, hskip]⟩

theorem parseSpans_lead_unclosed {p : Bytes}
    (h : parseWordSpans (afterSpace (lead z)) = (ws, .error p)) :
    parseSpans z = ([], some (afterSpace (lead z), p)) := by
  rw [parseSpans_command (lead_head_of_afterSpace hcomment) hend, h]

theorem parseSpans_lead_command {zEnd : Bytes}
    (h : parseWordSpans (afterSpace (lead z)) = (ws, .ok zEnd)) :
    parseSpans z = (ws :: (parseSpans (skipTerminator zEnd)).1,
      (parseSpans (skipTerminator zEnd)).2) := by
  obtain ⟨n, ws', rfl⟩ := exists_word_of_parse (afterSpace_atToken _) hend h
  rw [parseSpans_command (lead_head_of_afterSpace hcomment) hend, h]
  rfl

end Commands

variable {env s} {z : Bytes}

theorem SpansAgree.congr {z' : Bytes} (hparse : parseSpans z = parseSpans z')
    (heval : evalSpans (wordOk env s) z = evalSpans (wordOk env s) z') :
    SpansAgree env s z ↔ SpansAgree env s z' := by
  rw [SpansAgree, hparse, heval, SpansAgree]

theorem SpansAgree.cons {rest : Bytes} {ws : List WordSpan}
    (hparse : parseSpans z = (ws :: (parseSpans rest).1, (parseSpans rest).2))
    (heval : evalSpans (wordOk env s) z =
      (ws :: (evalSpans (wordOk env s) rest).1, (evalSpans (wordOk env s) rest).2)) :
    SpansAgree env s z ↔ SimpleLiteral env s ws ∧ SpansAgree env s rest := by
  simp only [SpansAgree, hparse, heval, Prod.ext_iff, List.cons.injEq, true_and, forall_mem_cons]
  exact and_left_comm

theorem spansAgree_comment {rest : Bytes} (h : lead z = chHash :: rest)
    (hquiet : quiet true rest = true) :
    SpansAgree env s z ↔ SpansAgree env s ((parseComment (lead z)).drop 1) := by
  refine SpansAgree.congr (parseSpans_comment h) ?_
  have hsame := evalSpans_quiet (wordOk env s) true rest
  rw [if_pos hquiet, resume_true] at hsame
  rw [← evalSpans_lead, h, evalSpans_hash, hsame, parseComment_byte (by decide) (by decide)]

theorem spansAgree_empty (hend : AtTerminator (afterSpace (lead z))) :
    SpansAgree env s z ↔ SpansAgree env s ((afterSpace (lead z)).drop 1) := by
  refine SpansAgree.congr (parseSpans_empty hend) ?_
  rw [evalSpans_afterLead]
  rcases (afterSpace_atToken (lead z)).eq_or_of_atTerminator hend with hnil | hsemi
  · rw [hnil]
    rfl
  · obtain ⟨rest, hrest⟩ := head?_eq_some_iff.mp hsemi
    rw [hrest, evalSpans_semicolon]
    rfl

section Command

variable (hend : ¬AtTerminator (afterSpace (lead z)))
  (hcomment : (afterSpace (lead z)).head? ≠ some chHash)

include hend hcomment

theorem spansAgree_unclosed {p : Bytes} {ws : List WordSpan}
    (hwords : WordsAlike (afterSpace (lead z)) ws (.error p)) : SpansAgree env s z := by
  obtain ⟨hp, he⟩ := hwords.unclosed_both
  have hparse := parseSpans_lead_unclosed hend hcomment hp
  refine ⟨hparse.trans (evalSpans_lead_unclosed _ hend hcomment he).symm, ?_⟩
  rw [hparse]
  exact fun ws hws => absurd hws not_mem_nil

theorem spansAgree_command {rest : Bytes} {ws : List WordSpan}
    (hwords : WordsAlike (afterSpace (lead z)) ws (.ok rest))
    (hall : ∀ w ∈ ws, wordOk env s w.bytes = true) :
    SpansAgree env s z ↔ SimpleLiteral env s ws ∧ SpansAgree env s rest := by
  obtain ⟨zEnd, hp, hsame⟩ := hwords.parse
  obtain ⟨r, he, hsame'⟩ := hwords.scan (wordOk env s)
  apply SpansAgree.cons
  · rw [parseSpans_lead_command hend hcomment hp, hsame]
  · rw [evalSpans_lead_command _ hend hcomment he hall, hsame']

theorem wordsAlike_of_spansAgree (h : SpansAgree env s z) :
    (∃ ws p, WordsAlike (afterSpace (lead z)) ws (.error p)) ∨
      ∃ ws rest, WordsAlike (afterSpace (lead z)) ws (.ok rest) ∧
        ∀ w ∈ ws, wordOk env s w.bytes = true := by
  have hsame := h.1
  rcases hp : parseWordSpans (afterSpace (lead z)) with ⟨ws, p | zEnd⟩
  · rw [parseSpans_lead_unclosed hend hcomment hp] at hsame
    rcases he : scanWords (afterSpace (lead z)) with ⟨ws', p' | r⟩
    · obtain ⟨vs, q | r, hwords⟩ := wordsAlike_of_sameWords (by rw [hp, he]; trivial)
      · exact .inl ⟨vs, q, hwords⟩
      · obtain ⟨zEnd, hp', -⟩ := hwords.parse
        rw [hp] at hp'
        cases hp'
    · by_cases hall : ∀ w ∈ ws', wordOk env s w.bytes = true
      · rw [evalSpans_lead_command _ hend hcomment he hall] at hsame
        cases hsame
      · -- The parser stops at a word that is not closed, which the scan has measured.
        obtain ⟨w, hw, hbad⟩ := evalSpans_lead_badWord _ hend hcomment he hall
        rw [hbad] at hsame
        obtain ⟨e, herror⟩ := nextWord_of_parse_error hp
        have hok := nextWord_of_mem_scanWords (by rw [he]; exact hw)
        cases hsame
        rw [hok] at herror
        cases herror
  · rw [parseSpans_lead_command hend hcomment hp] at hsame
    rcases he : scanWords (afterSpace (lead z)) with ⟨ws', p' | r⟩
    · rw [evalSpans_lead_unclosed _ hend hcomment he] at hsame
      cases hsame
    · by_cases hall : ∀ w ∈ ws', wordOk env s w.bytes = true
      · rw [evalSpans_lead_command _ hend hcomment he hall] at hsame
        obtain rfl : ws = ws' := (List.cons.inj (Prod.mk.inj hsame).1).1
        obtain ⟨vs, q | r', hwords⟩ := wordsAlike_of_sameWords (by rw [hp, he]; rfl)
        · have hp' := hwords.unclosed_both.1
          rw [hp] at hp'
          cases hp'
        · obtain ⟨zEnd', hp', -⟩ := hwords.parse
          rw [hp] at hp'
          obtain rfl : ws = vs := (Prod.mk.inj hp').1
          exact .inr ⟨ws, r', hwords, hall⟩
      · obtain ⟨w, -, hbad⟩ := evalSpans_lead_badWord _ hend hcomment he hall
        rw [hbad] at hsame
        cases hsame

end Command

theorem spansAgree_of_readAlike (h : ReadAlike env s z) : SpansAgree env s z := by
  induction h with
  | @done z h =>
    have heval := evalSpans_lead (wordOk env s) z
    rw [h] at heval
    refine (SpansAgree.congr (parseSpans_done h) heval.symm).mpr ⟨rfl, ?_⟩
    exact fun ws hws => absurd hws not_mem_nil
  | comment h hquiet hrest ih => exact (spansAgree_comment h hquiet).mpr ih
  | empty hend hrest ih => exact (spansAgree_empty hend).mpr ih
  | unclosed hend hcomment hwords => exact spansAgree_unclosed hend hcomment hwords
  | command hend hcomment hwords hparse hsimple hrest ih =>
    exact (spansAgree_command hend hcomment hwords hparse).mpr ⟨hsimple, ih⟩

theorem readAlike_of_spansAgree (h : SpansAgree env s z) : ReadAlike env s z := by
  induction z using call_cases with
  | done z hlead => exact .done hlead
  | comment z rest hlead ih =>
    have hquiet := evalSpans_quiet (wordOk env s) true rest
    by_cases hq : quiet true rest = true
    · exact .comment hlead hq (ih ((spansAgree_comment hlead hq).mp h))
    · -- The evaluator has found a word that is not behind the parser's comment.
      rw [if_neg hq, resume_true, ← evalSpans_hash, ← hlead, evalSpans_lead, ← h.1,
        parseSpans_comment hlead, hlead, parseComment_byte (by decide) (by decide)] at hquiet
      obtain ⟨p, hp, hlt⟩ := hquiet
      exact absurd (parseSpans_first_le _ p hp) (Nat.not_le_of_lt hlt)
  | empty z hne hend ih => exact .empty hend (ih ((spansAgree_empty hend).mp h))
  | command z hhash hend ih =>
    have hcomment : (afterSpace (lead z)).head? ≠ some chHash := by
      -- The parser's first word would be the hash sign, in the evaluator's comment.
      intro hc
      obtain ⟨rest, hrest⟩ := head?_eq_some_iff.mp hc
      have hfirst := parseSpans_first hhash hend
      rw [h.1, evalSpans_afterLead, hrest, evalSpans_hash] at hfirst
      have hle := evalSpans_first_le _ _ _ hfirst
      have hskip := skipComment_length_le rest
      rw [length_cons] at hle
      omega
    rcases wordsAlike_of_spansAgree hend hcomment h with ⟨ws, p, hwords⟩ | ⟨ws, rest, hwords, hall⟩
    · exact .unclosed hend hcomment hwords
    · obtain ⟨hsimple, hrest⟩ := (spansAgree_command hend hcomment hwords hall).mp h
      have hlt : rest.length < z.length :=
        Nat.lt_of_lt_of_le (hwords.length_lt (afterSpace_atToken _) hend)
          (Nat.le_trans (afterSpace_length_le _) (lead_length_le z))
      exact .command hend hcomment hwords hall hsimple (ih rest hlt hrest)

end Th8
