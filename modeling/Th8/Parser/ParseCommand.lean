import Th8.Eval.ScriptSplit

/-!
# The parser for tools

`th8ParseCommand` reads one command of a script without evaluating it.  It shares white space
and words with the evaluator, and has its own rules for what is between commands: what it
skips, where a comment ends and where a command ends.

A pointer into the script is what is left of the script there.  The array of words never runs
out of memory here.
-/

namespace Th8

open Support List

abbrev chReturn : Byte := 0x0d

/-- A word of a parsed command; `isSimple` stands for `TH8_TOKEN_SIMPLE_WORD`. -/
structure ParsedWord where
  zData : Bytes
  nData : ℕ
  nLine : ℕ
  isSimple : Bool
deriving DecidableEq

structure Parse where
  zCommand : Option Bytes
  nCommand : ℕ
  aWord : List ParsedWord
  nLine : ℕ
  zAfter : Bytes
  zComment : Option Bytes
  nComment : ℕ
deriving DecidableEq

def isLead (c : Byte) : Bool := isSpace c || c == chSemicolon

def skipLead : ℕ → Bytes → ℕ × Bytes
  | nLine, [] => (nLine, [])
  | nLine, c :: rest =>
    if isLead c then skipLead (if c == chNewline then nLine + 1 else nLine) rest
    else (nLine, c :: rest)

def parseComment : Bytes → Bytes
  | [] => []
  | c :: rest =>
    if c == chNewline then c :: rest
    else if c == chBackslash then
      match rest with
      | [] => []
      | _ :: rest' => parseComment rest'
    else parseComment rest

def isTerminator (c : Byte) : Bool := c == chSemicolon || c == chNewline || c == chReturn

def AtTerminator (z : Bytes) : Prop := ∀ c ∈ z.head?, isTerminator c = true

instance (z : Bytes) : Decidable (AtTerminator z) :=
  inferInstanceAs (Decidable (∀ c ∈ z.head?, isTerminator c = true))

/-- The end of `th8ParseCommand`. -/
def skipTerminator (z : Bytes) : Bytes := if AtTerminator z then z.drop 1 else z

def isSimpleWord (zWord : Bytes) : Bool :=
  zWord.head? == some chOpenBrace ||
    zWord.all fun c => c != chDollar && c != chOpenBracket && c != chBackslash

/-- The word of `nWord` bytes at the head of the text. -/
def parsedWord (nLine : ℕ) (z : Bytes) (nWord : ℕ) : ParsedWord :=
  ⟨z, nWord, nLine, isSimpleWord (z.take nWord)⟩

/-- The word loop: what is left of the script where it stops, or the word that is not
closed with its error. -/
def parseWordScanner (nLine : ℕ) : Scanner Bytes ParsedWord (Except (Failure × Bytes) Bytes) where
  step := fun z =>
    if AtTerminator z then ([], .inr (.ok z))
    else
      let a := afterSpace z
      if AtTerminator a then ([], .inr (.ok a))
      else
        match nextWord a true with
        | .error e => ([], .inr (.error (e, a)))
        | .ok nWord =>
          if nWord = 0 then ([], .inr (.ok a))
          else ([parsedWord nLine a nWord], .inl (a.drop nWord))
  measure := List.length
  decreases := by
    intro z out z' h
    have hle := afterSpace_length_le z
    by_cases hend : AtTerminator z
    · rw [if_pos hend] at h
      cases h
    · rw [if_neg hend] at h
      by_cases hend' : AtTerminator (afterSpace z)
      · rw [if_pos hend'] at h
        cases h
      · rw [if_neg hend'] at h
        have hne : afterSpace z ≠ [] := fun hnil => hend' (by simp [AtTerminator, hnil])
        have hlen := length_pos_of_ne_nil hne
        rcases hword : nextWord (afterSpace z) true with e | nWord
        · simp only [hword] at h
          cases h
        · simp only [hword] at h
          split_ifs at h with hzero
          · cases h
          · cases h
            rw [length_drop]
            omega

def parseCommand (nLine : ℕ) (zScript : Bytes) : Parse × Option Failure :=
  let parse : Parse := ⟨none, 0, [], nLine, zScript, none, 0⟩
  match skipLead nLine zScript with
  | (_, []) => ({ parse with zAfter := [] }, none)
  | (nLine₁, c :: rest) =>
    let zStart := c :: rest
    if c == chHash then
      let z := parseComment zStart
      ({ parse with
          zComment := some zStart
          nComment := zStart.length - z.length
          zAfter := z.drop 1 }, none)
    else
      match (parseWordScanner nLine₁).run zStart with
      | (_, .error (e, z)) =>
        ({ parse with zCommand := some zStart, nLine := nLine₁, zAfter := z }, some e)
      | (aWord, .ok z) =>
        let zAfter := skipTerminator z
        ({ parse with
            zCommand := some zStart
            nCommand := zStart.length - zAfter.length
            aWord := aWord
            nLine := nLine₁
            zAfter := zAfter }, none)

/-! ## The rest of the script gets shorter -/

theorem skipLead_eq (nLine : ℕ) (z : Bytes) : (skipLead nLine z).2 = z.dropWhile isLead := by
  induction z generalizing nLine with
  | nil => rfl
  | cons c rest ih =>
    rw [skipLead]
    by_cases hc : isLead c = true
    · rw [if_pos hc, ih, dropWhile_cons_of_pos hc]
    · rw [if_neg hc, dropWhile_cons_of_neg hc]

variable {c : Byte}

theorem isLead_of_isTerminator (h : isTerminator c = true) : isLead c = true := by
  simp only [isTerminator, Bool.or_eq_true, beq_iff_eq] at h
  rcases h with (rfl | rfl) | rfl <;> decide

theorem not_atTerminator_of_not_isLead (h : isLead c = false) (rest : Bytes) :
    ¬AtTerminator (c :: rest) := by
  intro hend
  rw [isLead_of_isTerminator (hend c rfl)] at h
  cases h

theorem parseComment_length_le (z : Bytes) : (parseComment z).length ≤ z.length := by
  fun_induction parseComment z with
  | case1 => exact Nat.le_refl _
  | case2 => exact Nat.le_refl _
  | case3 => exact Nat.zero_le _
  | case4 c _ _ d rest ih =>
    simp only [length_cons]
    omega
  | case5 c rest _ _ ih =>
    simp only [length_cons]
    omega

theorem skipTerminator_length_le (z : Bytes) : (skipTerminator z).length ≤ z.length := by
  unfold skipTerminator
  split_ifs
  · simp
  · exact Nat.le_refl _

variable {z : Bytes}

theorem ne_nil_of_not_atTerminator (h : ¬AtTerminator z) : z ≠ [] := by
  rintro rfl
  exact h fun _ hc => by cases hc

theorem head_ne_semicolon (h : ¬AtTerminator z) : z.head? ≠ some chSemicolon :=
  fun hhead => h fun c hc => by
    rw [hhead, Option.mem_some] at hc
    exact hc ▸ by decide

theorem parsedWord_pos {n : ℕ} (h : ¬AtTerminator (afterSpace z))
    (hword : nextWord (afterSpace z) true = .ok n) : 0 < n :=
  nextWord_pos (afterSpace_atToken z) (ne_nil_of_not_atTerminator h)
    (fun _ => head_ne_semicolon h) hword

section WordLoop

variable {nLine : ℕ} {z : Bytes}

theorem parseWords_stop (h : AtTerminator z) : (parseWordScanner nLine).run z = ([], .ok z) :=
  (parseWordScanner nLine).run_of_stop (by simp [parseWordScanner, h])

theorem parseWords_space (h : ¬AtTerminator z) (h' : AtTerminator (afterSpace z)) :
    (parseWordScanner nLine).run z = ([], .ok (afterSpace z)) :=
  (parseWordScanner nLine).run_of_stop (by simp [parseWordScanner, h, h'])

theorem parseWords_unmatched {e : Failure} (h : ¬AtTerminator z)
    (h' : ¬AtTerminator (afterSpace z)) (hword : nextWord (afterSpace z) true = .error e) :
    (parseWordScanner nLine).run z = ([], .error (e, afterSpace z)) :=
  (parseWordScanner nLine).run_of_stop (by simp [parseWordScanner, h, h', hword])

theorem parseWords_word {n : ℕ} (h : ¬AtTerminator z) (h' : ¬AtTerminator (afterSpace z))
    (hword : nextWord (afterSpace z) true = .ok n) :
    (parseWordScanner nLine).run z =
      (parsedWord nLine (afterSpace z) n ::
          ((parseWordScanner nLine).run ((afterSpace z).drop n)).1,
        ((parseWordScanner nLine).run ((afterSpace z).drop n)).2) := by
  have hpos : n ≠ 0 := Nat.ne_of_gt (parsedWord_pos h' hword)
  have hstep : (parseWordScanner nLine).step z =
      ([parsedWord nLine (afterSpace z) n], .inl ((afterSpace z).drop n)) := by
    simp [parseWordScanner, h, h', hword, hpos]
  exact (parseWordScanner nLine).run_of_next hstep

end WordLoop

theorem parseWord_cases {motive : Bytes → Prop} (stop : ∀ z, AtTerminator z → motive z)
    (space : ∀ z, ¬AtTerminator z → AtTerminator (afterSpace z) → motive z)
    (unmatched : ∀ z e, ¬AtTerminator z → ¬AtTerminator (afterSpace z) →
      nextWord (afterSpace z) true = .error e → motive z)
    (word : ∀ z n, ¬AtTerminator z → ¬AtTerminator (afterSpace z) →
      nextWord (afterSpace z) true = .ok n → motive ((afterSpace z).drop n) →
      motive z) (z : Bytes) : motive z := by
  induction hn : z.length using Nat.strongRecOn generalizing z with
  | ind k ih =>
    by_cases h : AtTerminator z
    · exact stop z h
    by_cases h' : AtTerminator (afterSpace z)
    · exact space z h h'
    rcases hword : nextWord (afterSpace z) true with e | n
    · exact unmatched z e h h' hword
    · refine word z n h h' hword (ih _ ?_ _ rfl)
      have hpos := parsedWord_pos h' hword
      have hlen := length_pos_of_ne_nil (ne_nil_of_not_atTerminator h')
      have hle := afterSpace_length_le z
      rw [length_drop]
      omega

variable {nLine : ℕ}

theorem parseWords_length_le {zEnd : Bytes} {aWord : List ParsedWord}
    (h : (parseWordScanner nLine).run z = (aWord, .ok zEnd)) : zEnd.length ≤ z.length := by
  induction z using parseWord_cases generalizing aWord with
  | stop z hend =>
    rw [parseWords_stop hend] at h
    cases h
    exact Nat.le_refl _
  | space z hend hspace =>
    rw [parseWords_space hend hspace] at h
    cases h
    exact afterSpace_length_le z
  | unmatched z e hend hspace hword =>
    rw [parseWords_unmatched hend hspace hword] at h
    cases h
  | word z n hend hspace hword ih =>
    rw [parseWords_word hend hspace hword, Prod.mk.injEq] at h
    have hle := ih (Prod.ext rfl h.2)
    have hafter := afterSpace_length_le z
    rw [length_drop] at hle
    omega

theorem parseWords_length_lt {zEnd : Bytes} {aWord : List ParsedWord} (hstart : ¬AtTerminator z)
    (h : (parseWordScanner nLine).run z = (aWord, .ok zEnd)) :
    zEnd.length < z.length := by
  have hafter := afterSpace_length_le z
  by_cases hspace : AtTerminator (afterSpace z)
  · rw [parseWords_space hstart hspace] at h
    cases h
    refine Nat.lt_of_le_of_ne hafter fun hlen => hstart ?_
    have hsame : afterSpace z = z := by
      have hzero : z.length = 0 ∨ nextSpace z = 0 := by
        rw [afterSpace, length_drop] at hlen
        omega
      rcases hzero with hnil | hzero
      · rw [eq_nil_of_length_eq_zero hnil]
        rfl
      · simp [afterSpace, hzero]
    exact hsame ▸ hspace
  · rcases hword : nextWord (afterSpace z) true with e | n
    · rw [parseWords_unmatched hstart hspace hword] at h
      cases h
    · rw [parseWords_word hstart hspace hword, Prod.mk.injEq] at h
      have hle := parseWords_length_le (Prod.ext rfl h.2)
      have hpos := parsedWord_pos hspace hword
      have hlen := length_pos_of_ne_nil (ne_nil_of_not_atTerminator hspace)
      rw [length_drop] at hle
      omega

/-! ## What one call finds -/

def lead (z : Bytes) : Bytes := z.dropWhile isLead

theorem lead_length_le (z : Bytes) : (lead z).length ≤ z.length :=
  (dropWhile_sublist _).length_le

theorem not_isLead_of_lead {rest : Bytes} (h : lead z = c :: rest) : isLead c = false := by
  have hhead := head?_dropWhile_not isLead z
  rw [show z.dropWhile isLead = c :: rest from h] at hhead
  exact hhead

/-- The outcome of a call: no command, a comment, a word that is not closed, or a command. -/
inductive Found (nLine : ℕ) (z : Bytes) : Parse → Option Failure → Prop where
  | done {p : Parse} (h : lead z = []) (hwords : p.aWord = []) (hafter : p.zAfter = []) :
      Found nLine z p none
  | comment {p : Parse} {rest : Bytes} (h : lead z = chHash :: rest) (hwords : p.aWord = [])
      (hafter : p.zAfter = (parseComment (lead z)).drop 1) : Found nLine z p none
  | unmatched {p : Parse} {nLine₁ : ℕ} {aWord : List ParsedWord} {e : Failure} {zAfter : Bytes}
      (h : ¬AtTerminator (lead z)) (hcomment : (lead z).head? ≠ some chHash)
      (hwords : (parseWordScanner nLine₁).run (lead z) = (aWord, .error (e, zAfter)))
      (hcommand : p.zCommand = some (lead z)) (hafter : p.zAfter = zAfter) :
      Found nLine z p (some e)
  | command {p : Parse} {nLine₁ : ℕ} {zEnd : Bytes} (h : ¬AtTerminator (lead z))
      (hcomment : (lead z).head? ≠ some chHash)
      (hwords : (parseWordScanner nLine₁).run (lead z) = (p.aWord, .ok zEnd))
      (hafter : p.zAfter = skipTerminator zEnd) : Found nLine z p none

theorem parseCommand_found (nLine : ℕ) (z : Bytes) :
    Found nLine z (parseCommand nLine z).1 (parseCommand nLine z).2 := by
  have hlead : (skipLead nLine z).2 = lead z := skipLead_eq nLine z
  unfold parseCommand
  rcases hskip : skipLead nLine z with ⟨nLine₁, _ | ⟨c, rest⟩⟩
  · rw [hskip] at hlead
    exact .done hlead.symm rfl rfl
  · rw [hskip] at hlead
    have hstart : ¬AtTerminator (lead z) :=
      hlead ▸ not_atTerminator_of_not_isLead (not_isLead_of_lead hlead.symm) rest
    dsimp only at hlead ⊢
    by_cases hc : c = chHash
    · subst hc
      rw [if_pos (by decide)]
      exact .comment hlead.symm rfl (by rw [← hlead])
    · have hcomment : (lead z).head? ≠ some chHash := by
        simpa [← hlead] using hc
      rw [if_neg (by simpa using hc)]
      rcases hwords : (parseWordScanner nLine₁).run (c :: rest) with ⟨aWord, ⟨e, zErr⟩ | zEnd⟩
      · rw [hlead] at hwords
        exact .unmatched hstart hcomment hwords (by rw [← hlead]) rfl
      · rw [hlead] at hwords
        exact .command hstart hcomment hwords rfl

theorem parseCommand_length_lt (hne : z ≠ []) (hok : (parseCommand nLine z).2 = none) :
    (parseCommand nLine z).1.zAfter.length < z.length := by
  have hlead := lead_length_le z
  have hfound := parseCommand_found nLine z
  rw [hok] at hfound
  cases hfound with
  | done h hwords hafter =>
    rw [hafter]
    exact length_pos_of_ne_nil hne
  | @comment rest h hwords hafter =>
    have hle := parseComment_length_le (lead z)
    have hpos : 0 < (lead z).length := by simp [h]
    rw [hafter, length_drop]
    omega
  | command h hcomment hwords hafter =>
    have hlt := parseWords_length_lt h hwords
    have hskip := skipTerminator_length_le
    rw [hafter]
    exact Nat.lt_of_le_of_lt (hskip _) (Nat.lt_of_lt_of_le hlt hlead)

/-- The calls for one command after the other, each from where the one before it has ended.
A failure comes with the call that reports it. -/
def parseScriptScanner : Scanner Bytes (List ParsedWord) (Option Parse) where
  step := fun z =>
    if z = [] then ([], .inr none)
    else
      match parseCommand 1 z with
      | (p, some _) => ([], .inr (some p))
      | (p, none) => (if p.aWord = [] then [] else [p.aWord], .inl p.zAfter)
  measure := List.length
  decreases := by
    intro z out z' h
    by_cases hne : z = []
    · rw [if_pos hne] at h
      cases h
    · rw [if_neg hne] at h
      rcases hp : parseCommand 1 z with ⟨p, _ | e⟩
      · have hlt := parseCommand_length_lt hne (congrArg Prod.snd hp)
        simp only [hp, Prod.mk.injEq, Sum.inl.injEq] at h hlt
        rw [← h.2]
        exact hlt
      · simp only [hp] at h
        cases h

def parseScript (script : Bytes) : List (List ParsedWord) × Option Parse :=
  parseScriptScanner.run script

end Th8
