import Mathlib.Algebra.Group.Nat.Even
import Th8.Eval.Boundaries
import Th8.Parser.NestedContexts
import Th8.Support.Delimiters

/-!
# Complete scripts

`Th8_Complete` tells whether a shell should ask for another line.  It counts braces,
brackets and quotes from left to right, each by itself, while the evaluator reads groups
that nest in each other, and skips comments.
-/

namespace Th8

open Support List

/-- The local variables of `Th8_Complete`.  No string is longer than `TH8_MX_STRLEN`, so that
the counters stay within their range. -/
structure CompleteScan where
  nBrace : ℕ
  nBracket : ℕ
  inQuote : Bool
deriving DecidableEq

namespace CompleteScan

def start : CompleteScan := ⟨0, 0, false⟩

def read (s : CompleteScan) (c : Byte) : CompleteScan :=
  if s.inQuote then
    if c == chQuote then { s with inQuote := false } else s
  else if c == chOpenBrace then { s with nBrace := s.nBrace + 1 }
  else if c == chCloseBrace then { s with nBrace := s.nBrace - 1 }
  else if c == chOpenBracket then { s with nBracket := s.nBracket + 1 }
  else if c == chCloseBracket then { s with nBracket := s.nBracket - 1 }
  else if c == chQuote then { s with inQuote := true }
  else s

/-- The loop of `Th8_Complete`. -/
def scan : CompleteScan → Bytes → CompleteScan
  | s, [] => s
  | s, c :: rest =>
    if c == chBackslash then
      match rest with
      | [] => s.read c
      | _ :: rest' => scan s rest'
    else scan (s.read c) rest

end CompleteScan

def complete (zScript : Bytes) : Bool := CompleteScan.start.scan zScript == .start

/-! ## What the counters count -/

/-- The bytes outside quotes.  Quotes pair from left to right, and a backslash hides the byte
behind it. -/
def outsideQuotes : Bool → Bytes → Bytes
  | _, [] => []
  | inQuote, c :: rest =>
    if c = chBackslash then
      match rest with
      | [] => []
      | _ :: rest' => outsideQuotes inQuote rest'
    else if c = chQuote then outsideQuotes (!inQuote) rest
    else if inQuote then outsideQuotes inQuote rest
    else c :: outsideQuotes inQuote rest

def quoteCount : Bytes → ℕ
  | [] => 0
  | c :: rest =>
    if c = chBackslash then
      match rest with
      | [] => 0
      | _ :: rest' => quoteCount rest'
    else if c = chQuote then quoteCount rest + 1
    else quoteCount rest

/-- Read plainly, the delimiters of the text pair up: its quotes do, and outside of them no
tail of the text opens more braces than it closes, nor more brackets. -/
structure PairsUp (z : Bytes) : Prop where
  quotes : Even (quoteCount z)
  braces : Settles chOpenBrace chCloseBrace (outsideQuotes false z)
  brackets : Settles chOpenBracket chCloseBracket (outsideQuotes false z)

namespace CompleteScan

variable {s : CompleteScan}

theorem scan_lone : s.scan [chBackslash] = s := by
  obtain ⟨nBrace, nBracket, inQuote⟩ := s
  cases inQuote <;> rfl

theorem scan_escape (d : Byte) (rest : Bytes) :
    s.scan (chBackslash :: d :: rest) = s.scan rest := by
  rw [scan.eq_def]
  rfl

variable {c : Byte}

theorem scan_cons (h : c ≠ chBackslash) (rest : Bytes) :
    s.scan (c :: rest) = (s.read c).scan rest := by
  rw [scan.eq_def]
  simp only [beq_false_of_ne h, Bool.false_eq_true, if_false]

theorem read_quote : s.read chQuote = { s with inQuote := !s.inQuote } := by
  obtain ⟨nBrace, nBracket, inQuote⟩ := s
  cases inQuote <;> rfl

theorem read_inQuote (h : s.inQuote = true) (hquote : c ≠ chQuote) : s.read c = s := by
  rw [read, if_pos h, beq_false_of_ne hquote]
  rfl

theorem read_outside (h : s.inQuote = false) (hquote : c ≠ chQuote) :
    s.read c = ⟨flooredStep chOpenBrace chCloseBrace s.nBrace c,
      flooredStep chOpenBracket chCloseBracket s.nBracket c, false⟩ := by
  obtain ⟨nBrace, nBracket, inQuote⟩ := s
  obtain rfl : inQuote = false := h
  by_cases hopenBrace : c = chOpenBrace
  · subst hopenBrace
    rfl
  by_cases hcloseBrace : c = chCloseBrace
  · subst hcloseBrace
    rfl
  by_cases hopenBracket : c = chOpenBracket
  · subst hopenBracket
    rfl
  by_cases hcloseBracket : c = chCloseBracket
  · subst hcloseBracket
    rfl
  simp [read, flooredStep, hopenBrace, hcloseBrace, hopenBracket, hcloseBracket, hquote]

theorem outsideQuotes_escape (inQuote : Bool) (d : Byte) (rest : Bytes) :
    outsideQuotes inQuote (chBackslash :: d :: rest) = outsideQuotes inQuote rest := by
  rw [outsideQuotes.eq_def]
  simp

theorem quoteCount_escape (d : Byte) (rest : Bytes) :
    quoteCount (chBackslash :: d :: rest) = quoteCount rest := by
  rw [quoteCount.eq_def]
  simp

theorem scan_eq (z : Bytes) : s.scan z =
    ⟨flooredCount chOpenBrace chCloseBrace s.nBrace (outsideQuotes s.inQuote z),
      flooredCount chOpenBracket chCloseBracket s.nBracket (outsideQuotes s.inQuote z),
      xor s.inQuote (!decide (Even (quoteCount z)))⟩ := by
  fun_induction scan s z with
  | case1 s => simp [outsideQuotes, quoteCount, flooredCount]
  | case2 s c hback =>
    obtain rfl := beq_iff_eq.mp hback
    have hsame : s.read chBackslash = s := scan_lone
    rw [hsame]
    simp [outsideQuotes, quoteCount, flooredCount]
  | case3 s c hback d rest ih =>
    obtain rfl := beq_iff_eq.mp hback
    rw [ih, outsideQuotes_escape, quoteCount_escape]
  | case4 s c rest hback ih =>
    have hback : c ≠ chBackslash := by simpa using hback
    rw [ih]
    by_cases hquote : c = chQuote
    · subst hquote
      rw [read_quote, outsideQuotes.eq_def s.inQuote, quoteCount.eq_def (_ :: _)]
      simp only [if_neg hback, if_true, Nat.even_add_one, decide_not, Bool.not_not]
      cases s.inQuote <;> simp
    · have hcount : quoteCount (c :: rest) = quoteCount rest := by
        rw [quoteCount.eq_def]
        simp only [if_neg hback, if_neg hquote]
      rw [outsideQuotes.eq_def s.inQuote, hcount]
      simp only [if_neg hback, if_neg hquote]
      cases hin : s.inQuote with
      | true => simp [read_inQuote hin hquote, hin]
      | false => simp [read_outside hin hquote, flooredCount]

end CompleteScan

variable {z : Bytes}

theorem scan_eq_start_iff : CompleteScan.start.scan z = .start ↔ PairsUp z := by
  rw [CompleteScan.scan_eq, CompleteScan.start, CompleteScan.mk.injEq,
    flooredCount_eq_zero_iff (by decide), flooredCount_eq_zero_iff (by decide)]
  constructor
  · rintro ⟨⟨-, hbraces⟩, ⟨-, hbrackets⟩, hquotes⟩
    exact ⟨by simpa using hquotes, hbraces, hbrackets⟩
  · rintro ⟨hquotes, hbraces, hbrackets⟩
    have hbrace := hbraces _ (suffix_refl _)
    have hbracket := hbrackets _ (suffix_refl _)
    exact ⟨⟨(Nat.zero_add _).trans_le hbrace, hbraces⟩,
      ⟨(Nat.zero_add _).trans_le hbracket, hbrackets⟩, by simpa using hquotes⟩

/-- The groups of a word, from the opening byte on, and whether the evaluator finds the end
of each. -/
def groupScanner : Scanner Bytes (Bytes × Bool) Unit where
  step
    | [] => ([], .inr ())
    | c :: rest =>
      if c = chBackslash then ([], .inl rest.tail)
      else if Scope.opened c = [] then ([], .inl rest)
      else
        let r := nextCommandFrom (Scope.opened c) rest
        ([(c :: rest.take r.2, r.1.isEmpty)], .inl (rest.drop r.2))
  measure := List.length
  decreases := by
    intro z out z' h
    match z with
    | [] => cases h
    | c :: rest =>
      simp only at h
      split_ifs at h
      · cases h
        simp only [length_tail, length_cons]
        omega
      · cases h
        exact Nat.lt_succ_self _
      · cases h
        simp only [length_drop, length_cons]
        omega

def groups (zWord : Bytes) : List (Bytes × Bool) := (groupScanner.run zWord).1

/-- The comments in front of the next command.  A comment ends with its line. -/
def commentScanner : Scanner Bytes (Bytes × Bool) Unit where
  step := fun zInput =>
    match afterSpace (skipSemicolon zInput) with
    | [] => ([], .inr ())
    | c :: rest =>
      if c = chHash then
        let rest' := skipComment rest
        ([(c :: rest.take (rest.length - rest'.length), true)], .inl rest')
      else ([], .inr ())
  measure := List.length
  decreases := by
    intro z out z' h
    split at h
    · cases h
    · rename_i c rest heq
      split_ifs at h
      · cases h
        exact skipComment_length_lt heq
      · cases h

def comments (zInput : Bytes) : List (Bytes × Bool) := (commentScanner.run zInput).1

/-- The groups and comments of a script, command by command, up to the group that the
evaluator finds unterminated. -/
def unitScanner : Scanner Bytes (Bytes × Bool) Unit where
  step := fun zInput =>
    let zFirst := skipToCommand zInput
    if zFirst = [] then (comments zInput, .inr ())
    else
      let r := scanWords zFirst
      let units := comments zInput ++ r.1.flatMap fun w => groups w.bytes
      match r.2 with
      | .error z => (units ++ groups z, .inr ())
      | .ok rest => (units, .inl rest)
  measure := List.length
  decreases := by
    intro z out z' h
    by_cases hnil : skipToCommand z = []
    · rw [if_pos hnil] at h
      cases h
    · rw [if_neg hnil] at h
      rcases hscan : (scanWords (skipToCommand z)).2 with p | rest
      · simp only [hscan] at h
        cases h
      · simp only [hscan] at h
        cases h
        exact scanCommand_skip_length_lt hnil (scanCommand_of_ok hscan)

def units (zScript : Bytes) : List (Bytes × Bool) := (unitScanner.run zScript).1

def Terminated (zScript : Bytes) : Prop := (evalSpans (fun _ => true) zScript).2 = none

def UnitsPair (us : List (Bytes × Bool)) : Prop := ∀ u ∈ us, (PairsUp u.1 ↔ u.2 = true)

namespace CompleteScan

variable {s : CompleteScan}

theorem scan_append_even {u : Bytes} (h : evenTail u = true) (v : Bytes) :
    s.scan (u ++ v) = (s.scan u).scan v := by
  induction u using evenTail.induct generalizing s with
  | case1 => rfl
  | case2 c hback => 
      obtain rfl := beq_iff_eq.mp hback
      cases h
  | case3 c hback d rest ih =>
    obtain rfl := beq_iff_eq.mp hback
    rw [evenTail_escape] at h
    rw [cons_append, cons_append, scan_escape, scan_escape, ih h]
  | case4 c rest hback ih =>
    have hback : c ≠ chBackslash := by simpa using hback
    rw [evenTail_cons hback] at h
    rw [cons_append, scan_cons hback, scan_cons hback, ih h]

theorem read_space {c : Byte} (h : isSpace c = true) : s.read c = s := by
  have hne : ∀ d, isSpace d = false → (c == d) = false := by
    intro d hd
    apply beq_false_of_ne
    rintro rfl
    rw [h] at hd
    cases hd
  simp [read, hne chQuote (by decide), hne chOpenBrace (by decide),
    hne chCloseBrace (by decide), hne chOpenBracket (by decide), hne chCloseBracket (by decide)]

theorem scan_space {c : Byte} (h : isSpace c = true) (rest : Bytes) :
    s.scan (c :: rest) = s.scan rest := by
  rw [scan_cons (by simpa using isSpace_ne_backslash h), read_space h]

theorem scan_afterSpace (z : Bytes) : s.scan (afterSpace z) = s.scan z := by
  induction z using space_cases with
  | token z h => rw [h.afterSpace_eq]
  | space c rest h ih => rw [afterSpace_space h, scan_space h, ih]
  | continuation rest ih => rw [afterSpace_continuation, scan_escape, ih]

theorem scan_append_endOfLine {u v : Bytes} (h : endOfLine v = true) :
    s.scan (u ++ v) = (s.scan u).scan v := by
  induction u using evenTail.induct generalizing s with
  | case1 => rfl
  | case2 c hback =>
    obtain rfl := beq_iff_eq.mp hback
    rw [scan_lone]
    match v with
    | [] => exact scan_lone
    | d :: rest =>
      have hspace : isSpace d = true := by
        by_contra hspace
        have hnewline : d ≠ chNewline := by
          rintro rfl
          exact hspace isSpace_newline
        simp [endOfLine, hspace, hnewline] at h
      rw [singleton_append, scan_escape, scan_space hspace]
  | case3 c hback d rest ih =>
    obtain rfl := beq_iff_eq.mp hback
    rw [cons_append, cons_append, scan_escape, scan_escape, ih]
  | case4 c rest hback ih =>
    have hback : c ≠ chBackslash := by simpa using hback
    rw [cons_append, scan_cons hback, scan_cons hback, ih]

end CompleteScan

theorem endOfLine_skipComment (z : Bytes) : endOfLine (skipComment z) = true := by
  induction z with
  | nil => rfl
  | cons c rest ih =>
    rw [skipComment]
    split
    · assumption
    · exact ih

theorem skipComment_suffix (z : Bytes) : skipComment z <:+ z := by
  induction z with
  | nil => exact suffix_refl _
  | cons c rest ih =>
    rw [skipComment]
    split
    · exact suffix_refl _
    · exact ih.trans (suffix_cons c rest)

theorem comments_comment {rest : Bytes} (h : afterSpace (skipSemicolon z) = chHash :: rest) :
    comments z = (chHash :: rest.take (rest.length - (skipComment rest).length), true) ::
      comments (skipComment rest) := by
  have hstep : commentScanner.step z =
      ([(chHash :: rest.take (rest.length - (skipComment rest).length), true)],
        .inl (skipComment rest)) := by simp [commentScanner, h]
  rw [comments, commentScanner.run_of_next hstep]
  rfl

theorem UnitsPair.cons {u : Bytes × Bool} {us : List (Bytes × Bool)}
    (h : UnitsPair (u :: us)) : (PairsUp u.1 ↔ u.2 = true) ∧ UnitsPair us :=
  forall_mem_cons.mp h

theorem UnitsPair.append {us us' : List (Bytes × Bool)} (h : UnitsPair (us ++ us')) :
    UnitsPair us ∧ UnitsPair us' :=
  forall_mem_append.mp h

namespace CompleteScan

theorem scan_skipSemicolon {s : CompleteScan} (z : Bytes) :
    s.scan (skipSemicolon z) = s.scan z := by
  cases z with
  | nil => rfl
  | cons c rest =>
    rw [skipSemicolon]
    split_ifs with hsemi
    · obtain rfl := beq_iff_eq.mp hsemi
      have hsame : s.read chSemicolon = s := by
        obtain ⟨nBrace, nBracket, inQuote⟩ := s
        cases inQuote <;> rfl
      rw [scan_cons (by decide), hsame]
    · rfl

theorem scan_skipToCommand {z : Bytes} (h : UnitsPair (comments z)) :
    start.scan (skipToCommand z) = start.scan z := by
  have hskip : ∀ z, start.scan z = start.scan (afterSpace (skipSemicolon z)) := by
    intro z
    rw [scan_afterSpace, scan_skipSemicolon]
  induction z using skip_cases with
  | done z hz => rw [skipToCommand_done hz, hskip z, hz]
  | command z c rest hz hc => rw [skipToCommand_command hz hc, hskip z, hz]
  | comment z rest hz ih =>
    rw [comments_comment hz] at h
    obtain ⟨hpairs, hrest⟩ := h.cons
    rw [skipToCommand_comment hz, ih hrest, hskip z, hz]
    have happend := suffix_iff_eq_append.mp (skipComment_suffix rest)
    have hcomment := scan_eq_start_iff.mpr (hpairs.mpr rfl)
    conv_rhs => rw [← happend, ← cons_append,
      scan_append_endOfLine (endOfLine_skipComment rest), hcomment]

end CompleteScan

/-! ### Words -/

theorem groups_nil : groups [] = [] := by
  rw [groups, groupScanner.run_of_stop rfl]

theorem groups_backslash (rest : Bytes) : groups (chBackslash :: rest) = groups rest.tail := by
  rw [groups, groupScanner.run_of_next rfl]
  rfl

variable {c : Byte}

theorem groups_plain (hback : c ≠ chBackslash) (hopened : Scope.opened c = []) (rest : Bytes) :
    groups (c :: rest) = groups rest := by
  have hstep : groupScanner.step (c :: rest) = ([], .inl rest) := by
    simp [groupScanner, hback, hopened]
  rw [groups, groupScanner.run_of_next hstep]
  rfl

variable {s : Scope}

theorem groups_group (hopened : Scope.opened c = [s]) (rest : Bytes) :
    groups (c :: rest) =
      (c :: rest.take (nextCommandFrom [s] rest).2, (nextCommandFrom [s] rest).1.isEmpty) ::
        groups (rest.drop (nextCommandFrom [s] rest).2) := by
  have hstep : groupScanner.step (c :: rest) =
      ([(c :: rest.take (nextCommandFrom [s] rest).2, (nextCommandFrom [s] rest).1.isEmpty)],
        .inl (rest.drop (nextCommandFrom [s] rest).2)) := by
    simp [groupScanner, ne_backslash_of_opened hopened, hopened]
  rw [groups, groupScanner.run_of_next hstep]
  rfl

theorem groups_body {b : Bytes} (hopened : Scope.opened c = [s]) (hb : contexts.Body s b)
    (rest : Bytes) :
    groups (c :: (b ++ rest)) = (c :: b, true) :: groups rest := by
  rw [groups_group hopened, nextCommandFrom_body hb, take_left, drop_left]
  rfl

theorem evenTail_append_even {u : Bytes} (h : evenTail u = true) (v : Bytes) :
    evenTail (u ++ v) = evenTail v := by
  induction u using evenTail.induct with
  | case1 => rfl
  | case2 c hback =>
    obtain rfl := beq_iff_eq.mp hback
    cases h
  | case3 c hback d rest ih =>
    obtain rfl := beq_iff_eq.mp hback
    rw [evenTail_escape] at h
    rw [cons_append, cons_append, evenTail_escape, ih h]
  | case4 c rest hback ih =>
    have hback : c ≠ chBackslash := by simpa using hback
    rw [evenTail_cons hback] at h
    rw [cons_append, evenTail_cons hback, ih h]

theorem evenTail_body {b : Bytes} (h : contexts.Body s b) : evenTail b = true := by
  induction h with
  | close s =>
    rw [evenTail_cons (contexts.closer_ne_escape s)]
    rfl
  | escape c _ ih =>
    change evenTail (chBackslash :: c :: _) = true
    rw [evenTail_escape, ih]
  | plain hescape _ _ _ ih => rw [evenTail_cons hescape, ih]
  | nested hopens _ _ ihInner ihRest =>
    rw [evenTail_cons (Nesting.opens_ne_escape hopens), evenTail_append_even ihInner, ihRest]

theorem nextCommandFrom_unclosed {stack : List Scope} (h : (nextCommandFrom stack z).1 ≠ []) :
    (nextCommandFrom stack z).2 = z.length := by
  fun_induction nextCommandFrom stack z with
  | case1 => exact absurd rfl h
  | case2 => rfl
  | case3 => rfl
  | case4 scope below c hback d rest ih => 
      simp only [advance] at h ⊢
      rw [ih h]
      rfl
  | case5 scope below c rest hback ih =>
    simp only [advance] at h ⊢
    rw [ih h]
    rfl

namespace CompleteScan

theorem read_plain {c : Byte} (h : Scope.opened c = []) : start.read c = start := by
  have hne : ∀ d, Scope.opened d ≠ [] → c ≠ d := by
    rintro d hd rfl
    exact hd h
  have hquote := hne chQuote (by decide)
  have hbrace := hne chOpenBrace (by decide)
  have hbracket := hne chOpenBracket (by decide)
  rw [read_outside rfl hquote, flooredStep, flooredStep, if_neg hbrace, if_neg hbracket]
  simp [start]

theorem scan_word {isCmd : Bool} {w rest : Bytes} (h : Word isCmd w rest)
    (hpairs : UnitsPair (groups w)) : start.scan (w ++ rest) = start.scan rest := by
  induction h with
  | done => rfl
  | lone => exact scan_lone
  | escape hd _ ih =>
    rw [groups_backslash] at hpairs
    rw [cons_append, cons_append, scan_escape, ih hpairs]
  | plain hsep hback hopened _ ih =>
    rw [groups_plain hback hopened] at hpairs
    rw [cons_append, scan_cons hback, read_plain hopened, ih hpairs]
  | @nested c s b w rest hopened hb _ ih =>
    rw [groups_body hopened hb] at hpairs
    obtain ⟨hgroup, hpairs⟩ := hpairs.cons
    have heven : evenTail (c :: b) = true := by
      rw [evenTail_cons (ne_backslash_of_opened hopened), evenTail_body hb]
    have hstart := scan_eq_start_iff.mpr (hgroup.mpr rfl)
    rw [← cons_append, append_assoc, scan_append_even heven, hstart, ih hpairs]

variable {z : Bytes}

theorem scan_unclosed {isCmd : Bool} (h : (nextWordFrom isCmd [] z).1 ≠ [])
    (hpairs : UnitsPair (groups z)) : start.scan z ≠ start := by
  induction hn : z.length using Nat.strongRecOn generalizing z with
  | ind n ih =>
    subst hn
    match z with
    | [] => exact absurd (congrArg Prod.fst (nextWordFrom_end .input)) h
    | c :: rest =>
      by_cases hsep : separates isCmd c = true
      · exact absurd (congrArg Prod.fst (nextWordFrom_end (.separator hsep))) h
      rw [Bool.not_eq_true] at hsep
      by_cases hback : c = chBackslash
      · subst hback
        match rest with
        | [] => exact absurd (congrArg Prod.fst nextWordFrom_lone) h
        | d :: rest =>
          by_cases hd : d = chNewline
          · subst hd
            exact absurd (congrArg Prod.fst (nextWordFrom_end .continuation)) h
          rw [nextWordFrom_escape hd] at h
          rw [groups_backslash] at hpairs
          rw [scan_escape]
          exact ih rest.length (by simp only [length_cons]; omega) h hpairs rfl
      rw [nextWordFrom_symbol hsep hback] at h
      rcases Scope.opened_cases c with hopened | ⟨s, hopened, _⟩
      · rw [hopened] at h
        rw [groups_plain hback hopened] at hpairs
        rw [scan_cons hback, read_plain hopened]
        exact ih rest.length (by simp) h hpairs rfl
      · rw [hopened] at h
        by_cases hclosed : (nextCommandFrom [s] rest).1 = []
        · obtain ⟨b, after, rfl, hb⟩ := scans_nextCommandFrom.exists_body hclosed
          simp only [advance, (scans_nextWordFrom isCmd).body hb] at h
          rw [groups_body hopened hb] at hpairs
          obtain ⟨hgroup, hpairs⟩ := hpairs.cons
          have heven : evenTail (c :: b) = true := by
            rw [evenTail_cons hback, evenTail_body hb]
          rw [← cons_append, scan_append_even heven, scan_eq_start_iff.mpr (hgroup.mpr rfl)]
          exact ih after.length (by simp only [length_cons, length_append]; omega) h hpairs rfl
        · rw [groups_group hopened] at hpairs
          have hgroup := hpairs.cons.1
          rw [nextCommandFrom_unclosed hclosed, take_length] at hgroup
          intro hstart
          have hempty := hgroup.mp (scan_eq_start_iff.mp hstart)
          exact hclosed (isEmpty_iff.mp hempty)

theorem scan_scanWords (h : UnitsPair ((scanWords z).1.flatMap fun w => groups w.bytes)) :
    match (scanWords z).2 with
    | .ok rest => start.scan z = start.scan rest
    | .error p => start.scan z = start.scan p ∧ (nextWordFrom true [] p).1 ≠ [] := by
  induction z using scan_cases with
  | stop z hend => rw [scanWords_stop hend]
  | unmatched z e hend hword =>
    rw [scanWords_unmatched hend hword]
    refine ⟨(scan_afterSpace z).symm, ?_⟩
    intro hnil
    rw [← nextWordScan_eq] at hnil
    have hok := nextWord_eq_ok.mpr (Prod.ext hnil rfl)
    rw [hword] at hok
    cases hok
  | word z n hend hword ih =>
    obtain ⟨w, rest, heq, rfl, hw⟩ := nextWord_eq_ok_iff.mp hword
    rw [scanWords_word hend hword, flatMap_append] at h
    obtain ⟨hgroups, hrest⟩ := h.append
    have hpairs : UnitsPair (groups w) := by
      by_cases hzero : w.length = 0
      · rw [eq_nil_of_length_eq_zero hzero, groups_nil]
        exact fun _ h => absurd h not_mem_nil
      · rw [if_neg hzero] at hgroups
        simpa [WordSpan.bytes, heq] using hgroups
    have hskip : start.scan z = start.scan ((afterSpace z).drop w.length) := by
      rw [← scan_afterSpace z, heq, drop_left, scan_word hw hpairs]
    rw [scanWords_word hend hword, hskip]
    exact ih hrest

/-! ### Scripts -/

theorem units_done (h : skipToCommand z = []) : units z = comments z := by
  have hstep : unitScanner.step z = (comments z, .inr ()) := if_pos h
  rw [units, unitScanner.run_of_stop hstep]

theorem units_unclosed {p : Bytes} (hne : skipToCommand z ≠ [])
    (h : (scanWords (skipToCommand z)).2 = .error p) :
    units z = comments z ++ ((scanWords (skipToCommand z)).1.flatMap fun w => groups w.bytes) ++
      groups p := by
  have hstep : unitScanner.step z = _ := if_neg hne
  simp only [h] at hstep
  rw [units, unitScanner.run_of_stop hstep]

theorem units_command {rest : Bytes} (hne : skipToCommand z ≠ [])
    (h : (scanWords (skipToCommand z)).2 = .ok rest) :
    units z = comments z ++ ((scanWords (skipToCommand z)).1.flatMap fun w => groups w.bytes) ++
      units rest := by
  have hstep : unitScanner.step z = _ := if_neg hne
  simp only [h] at hstep
  rw [units, unitScanner.run_of_next hstep]
  rfl

theorem scan_eq_start_iff_terminated (h : UnitsPair (units z)) :
    start.scan z = start ↔ Terminated z := by
  induction z using unitScanner.induction with
  | stop z out b hstep =>
    by_cases hnil : skipToCommand z = []
    · rw [units_done hnil] at h
      refine iff_of_true ?_ ?_
      · rw [← scan_skipToCommand h, hnil]
        rfl
      · rw [Terminated, evalSpans_done _ hnil]
    · have hgo : unitScanner.step z = _ := if_neg hnil
      rcases hscan : (scanWords (skipToCommand z)).2 with p | rest
      · rw [units_unclosed hnil hscan] at h
        obtain ⟨⟨hcomments, hwords⟩, hgroups⟩ := h.append.imp_left UnitsPair.append
        have hskip := scan_scanWords hwords
        rw [hscan] at hskip
        refine iff_of_false ?_ ?_
        · rw [← scan_skipToCommand hcomments, hskip.1]
          exact scan_unclosed hskip.2 hgroups
        · rw [Terminated, evalSpans_unclosed _ hnil hscan]
          exact Option.some_ne_none _
      · simp only [hscan] at hgo
        rw [hgo] at hstep
        cases hstep
  | next z out rest hstep ih =>
    by_cases hnil : skipToCommand z = []
    · have hstop : unitScanner.step z = _ := if_pos hnil
      rw [hstop] at hstep
      cases hstep
    · have hgo : unitScanner.step z = _ := if_neg hnil
      rcases hscan : (scanWords (skipToCommand z)).2 with p | rest'
      · simp only [hscan] at hgo
        rw [hgo] at hstep
        cases hstep
      · simp only [hscan] at hgo
        rw [hgo] at hstep
        cases hstep
        rw [units_command hnil hscan] at h
        obtain ⟨⟨hcomments, hwords⟩, hrest⟩ := h.append.imp_left UnitsPair.append
        have hskip := scan_scanWords hwords
        rw [hscan] at hskip
        have hspans := evalSpans_command (fun _ => true) hnil (Prod.ext rfl hscan) fun _ _ => rfl
        rw [Terminated, hspans, ← scan_skipToCommand hcomments, hskip]
        exact ih hrest

end CompleteScan

/-- For every script: `Th8_Complete` accepts it exactly if the evaluator finds no group of it
unterminated, provided that each group and comment pairs up by itself exactly if the evaluator
finds its end. -/
theorem complete_iff_terminated {zScript : Bytes} (h : UnitsPair (units zScript)) :
    complete zScript = true ↔ Terminated zScript := by
  rw [complete, beq_iff_eq]
  exact CompleteScan.scan_eq_start_iff_terminated h

instance (z : Bytes) : Decidable (PairsUp z) :=
  decidable_of_iff (Even (quoteCount z) ∧
      (∀ t ∈ (outsideQuotes false z).tails, t.count chOpenBrace ≤ t.count chCloseBrace) ∧
      ∀ t ∈ (outsideQuotes false z).tails, t.count chOpenBracket ≤ t.count chCloseBracket) <| by
    simp only [mem_tails]
    exact ⟨fun ⟨hquotes, hbraces, hbrackets⟩ => ⟨hquotes, hbraces, hbrackets⟩,
      fun h => ⟨h.quotes, h.braces, h.brackets⟩⟩

instance (us : List (Bytes × Bool)) : Decidable (UnitsPair us) :=
  inferInstanceAs (Decidable (∀ u ∈ us, (PairsUp u.1 ↔ u.2 = true)))

instance (z : Bytes) : Decidable (Terminated z) :=
  inferInstanceAs (Decidable ((evalSpans (fun _ => true) z).2 = none))

theorem complete_iff_terminated_body :
    complete (ascii "proc f \x7bx\x7d \x7bputs [g \"$x\"]\x7d") = true ↔
      Terminated (ascii "proc f \x7bx\x7d \x7bputs [g \"$x\"]\x7d") :=
  complete_iff_terminated (by decide +kernel)

/-- A quote between braces is a byte as any other for the evaluator. -/
theorem not_complete_iff_terminated : ¬∀ zScript, complete zScript = true ↔ Terminated zScript := by
  intro hall
  have hterminated : Terminated (ascii "\x7b\"\x7d") := by decide +kernel
  exact absurd ((hall _).mpr hterminated) (by decide +kernel)

end Th8
