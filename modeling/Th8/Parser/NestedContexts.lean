import Th8.Parser.Tokenizer
import Th8.Support.Nesting

/-!
# The grammar of nested contexts

Braces, brackets and quotes nest by rules that differ from context to context:
between braces only a backslash and braces count, between brackets quotes and
brackets as well, between quotes a backslash, the closing quote and an opening
bracket.  `th8NextCommand` and `th8NextWord` keep a stack of contexts; what they
delimit is what the recursive grammar describes.
-/

namespace Th8

open Support List

namespace Scope

def closer : Scope → Byte
  | brace => chCloseBrace
  | bracket => chCloseBracket
  | quote => chQuote

def opens : Scope → Byte → Option Scope
  | brace, c => if c = chOpenBrace then some brace else none
  | bracket, c =>
    if c = chQuote then some quote
    else if c = chOpenBrace then some brace
    else if c = chOpenBracket then some bracket
    else none
  | quote, c => if c = chOpenBracket then some bracket else none

end Scope

def contexts : Nesting Scope Byte where
  escape := chBackslash
  closer := Scope.closer
  opens := Scope.opens
  closer_ne_escape := by
    intro s
    cases s <;> decide
  opens_closer := by
    intro s
    cases s <;> decide
  opens_escape := by
    intro s
    cases s <;> decide

theorem Scope.read_eq (scope : Scope) (below : List Scope) (c : Byte) :
    scope.read below c = contexts.read scope below c := by
  cases scope with
  | brace =>
    simp only [Scope.read, Nesting.read, contexts, Scope.closer, Scope.opens, beq_iff_eq]
    grind
  | bracket =>
    simp only [Scope.read, Nesting.read, contexts, Scope.closer, Scope.opens, beq_iff_eq]
    grind
  | quote =>
    simp only [Scope.read, Nesting.read, contexts, Scope.closer, Scope.opens, beq_iff_eq]
    grind

theorem scans_nextCommandFrom : contexts.Scans nextCommandFrom where
  nil s below := by rw [nextCommandFrom]
  lone s below := by rw [nextCommandFrom.eq_def]; rfl
  escape s below c rest := by rw [nextCommandFrom.eq_def]; rfl
  symbol s below c rest h := by
    have hback : (c == chBackslash) = false := beq_false_of_ne h
    rw [nextCommandFrom.eq_def]
    simp only [hback, Bool.false_eq_true, if_false]
    rw [advance, Scope.read_eq]

theorem scans_nextWordFrom (isCmd : Bool) : contexts.Scans (nextWordFrom isCmd) where
  nil s below := by rw [nextWordFrom.eq_def]
  lone s below := by rw [nextWordFrom.eq_def]; rfl
  escape s below c rest := by rw [nextWordFrom.eq_def]; rfl
  symbol s below c rest h := by
    have hback : (c == chBackslash) = false := beq_false_of_ne h
    rw [nextWordFrom.eq_def]
    simp only [hback, Bool.false_eq_true, if_false]
    rw [advance, Scope.read_eq]

theorem nextCommandFrom_empty (z : Bytes) : nextCommandFrom [] z = ([], 0) := by
  rw [nextCommandFrom]

variable {s : Scope}

theorem nextCommandFrom_body {b : Bytes} (h : contexts.Body s b) (z : Bytes) :
    nextCommandFrom [s] (b ++ z) = ([], b.length) := by
  rw [scans_nextCommandFrom.body h, nextCommandFrom_empty, Nat.zero_add]

/-! ## Blocks -/

inductive TextBlock : Bytes → Prop where
  | braces {body : Bytes} : contexts.Body .brace body → TextBlock (chOpenBrace :: body)
  | brackets {body : Bytes} : contexts.Body .bracket body → TextBlock (chOpenBracket :: body)

theorem nextCommand_cons (first : Byte) (rest : Bytes) :
    nextCommand (first :: rest) =
      if first != chOpenBrace && first != chOpenBracket then
        .error (.message "Expected '\x7b' or '[' at start of:" (first :: rest))
      else
        match nextCommandFrom (Scope.opened first) rest with
        | ([], n) => .ok (n + 1)
        | (inner :: _, _) => .error (.message inner.unmatched (first :: rest)) := rfl

theorem nextCommand_opened {first : Byte} {rest : Bytes} {n : ℕ}
    (hfirst : first = chOpenBrace ∨ first = chOpenBracket) (hopened : Scope.opened first = [s]) :
    nextCommand (first :: rest) = .ok n ↔
      ∃ b after, rest = b ++ after ∧ n = b.length + 1 ∧ contexts.Body s b := by
  have hstart : ¬(first != chOpenBrace && first != chOpenBracket) = true := by
    rcases hfirst with rfl | rfl <;> decide
  rw [nextCommand_cons, if_neg hstart, hopened]
  constructor
  · intro h
    split at h
    · rename_i m hscan
      cases h
      obtain ⟨b, after, rfl, hb⟩ := scans_nextCommandFrom.exists_body (congrArg Prod.fst hscan)
      rw [nextCommandFrom_body hb] at hscan
      cases hscan
      exact ⟨b, after, rfl, rfl, hb⟩
    · cases h
  · rintro ⟨b, after, rfl, rfl, hb⟩
    rw [nextCommandFrom_body hb]

theorem TextBlock.unique {b b' r r' : Bytes} (h : TextBlock b) (h' : TextBlock b')
    (heq : b ++ r = b' ++ r') : b = b' ∧ r = r' := by
  cases h with
  | braces hb =>
    cases h' with
    | braces hb' =>
      obtain ⟨hbody, hrest⟩ := hb.unique hb' (List.cons.inj heq).2
      exact ⟨congrArg _ hbody, hrest⟩
    | brackets hb' => exact absurd (List.cons.inj heq).1 (by decide)
  | brackets hb =>
    cases h' with
    | braces hb' => exact absurd (List.cons.inj heq).1 (by decide)
    | brackets hb' =>
      obtain ⟨hbody, hrest⟩ := hb.unique hb' (List.cons.inj heq).2
      exact ⟨congrArg _ hbody, hrest⟩

theorem nextCommand_eq_ok_iff {z : Bytes} {n : ℕ} :
    nextCommand z = .ok n ↔ ∃ b rest, z = b ++ rest ∧ n = b.length ∧ TextBlock b := by
  constructor
  · intro h
    match z with
    | [] => cases h
    | first :: rest =>
      by_cases hbrace : first = chOpenBrace
      · subst hbrace
        rw [nextCommand_opened (.inl rfl) (s := .brace) rfl] at h
        obtain ⟨b, after, rfl, rfl, hb⟩ := h
        exact ⟨_, after, rfl, rfl, .braces hb⟩
      by_cases hbracket : first = chOpenBracket
      · subst hbracket
        rw [nextCommand_opened (.inr rfl) (s := .bracket) rfl] at h
        obtain ⟨b, after, rfl, rfl, hb⟩ := h
        exact ⟨_, after, rfl, rfl, .brackets hb⟩
      · rw [nextCommand_cons, if_pos (by simp [hbrace, hbracket])] at h
        cases h
  · rintro ⟨b, rest, rfl, rfl, hb⟩
    cases hb with
    | braces hb =>
      exact (nextCommand_opened (.inl rfl) (s := .brace) rfl).mpr ⟨_, rest, rfl, rfl, hb⟩
    | brackets hb =>
      exact (nextCommand_opened (.inr rfl) (s := .bracket) rfl).mpr ⟨_, rest, rfl, rfl, hb⟩

def separates (isCmd : Bool) (c : Byte) : Bool := isSpace c || (isCmd && c == chSemicolon)

inductive WordEnd (isCmd : Bool) : Bytes → Prop where
  | input : WordEnd isCmd []
  | separator {c : Byte} {rest : Bytes} (h : separates isCmd c = true) : WordEnd isCmd (c :: rest)
  | continuation {rest : Bytes} : WordEnd isCmd (chBackslash :: chNewline :: rest)

inductive Word (isCmd : Bool) : Bytes → Bytes → Prop where
  | done {rest : Bytes} : WordEnd isCmd rest → Word isCmd [] rest
  | lone : Word isCmd [chBackslash] []
  | escape {d : Byte} {w rest : Bytes} (hd : d ≠ chNewline) :
      Word isCmd w rest → Word isCmd (chBackslash :: d :: w) rest
  | plain {c : Byte} {w rest : Bytes} (hsep : separates isCmd c = false)
      (hback : c ≠ chBackslash) (hopened : Scope.opened c = []) :
      Word isCmd w rest → Word isCmd (c :: w) rest
  | nested {c : Byte} {s : Scope} {b w rest : Bytes} (hopened : Scope.opened c = [s]) :
      contexts.Body s b → Word isCmd w rest → Word isCmd (c :: (b ++ w)) rest

theorem Scope.opened_cases (c : Byte) :
    Scope.opened c = [] ∨ ∃ s, Scope.opened c = [s] ∧ ∀ isCmd, separates isCmd c = false := by
  unfold Scope.opened
  by_cases hbrace : c = chOpenBrace
  · subst hbrace
    exact .inr ⟨_, rfl, by decide⟩
  by_cases hbracket : c = chOpenBracket
  · subst hbracket
    exact .inr ⟨_, rfl, by decide⟩
  by_cases hquote : c = chQuote
  · subst hquote
    exact .inr ⟨_, rfl, by decide⟩
  · simp [hbrace, hbracket, hquote]

theorem ne_backslash_of_opened {c : Byte} (h : Scope.opened c = [s]) : c ≠ chBackslash := by
  rintro rfl
  cases h

theorem separates_opener {isCmd : Bool} {c : Byte} (h : Scope.opened c = [s]) :
    separates isCmd c = false := by
  rcases Scope.opened_cases c with hnil | ⟨_, _, hsep⟩
  · rw [hnil] at h
    cases h
  · exact hsep isCmd

/-! ### The bare part of the word loop -/

section Bare

variable {isCmd : Bool}

variable {z : Bytes}

theorem nextWordFrom_end (h : WordEnd isCmd z) : nextWordFrom isCmd [] z = ([], 0) := by
  rw [nextWordFrom.eq_def]
  cases h with
  | input => rfl
  | separator h =>
    unfold separates at h
    grind
  | continuation => simp [(by decide : isSpace chBackslash = false)]

theorem nextWordFrom_lone : nextWordFrom isCmd [] [chBackslash] = ([], 1) := by
  rw [nextWordFrom.eq_def]
  simp [(by decide : isSpace chBackslash = false), (by decide : chBackslash ≠ chSemicolon)]

theorem nextWordFrom_escape {d : Byte} (hd : d ≠ chNewline) (rest : Bytes) :
    nextWordFrom isCmd [] (chBackslash :: d :: rest) = advance 2 (nextWordFrom isCmd [] rest) := by
  rw [nextWordFrom.eq_def]
  simp [(by decide : isSpace chBackslash = false), (by decide : chBackslash ≠ chSemicolon), hd]

theorem nextWordFrom_symbol {c : Byte} (hsep : separates isCmd c = false)
    (hback : c ≠ chBackslash) (rest : Bytes) :
    nextWordFrom isCmd [] (c :: rest) = advance 1 (nextWordFrom isCmd (Scope.opened c) rest) := by
  simp only [separates, Bool.or_eq_false_iff] at hsep
  have hback : (c == chBackslash) = false := beq_false_of_ne hback
  rw [nextWordFrom.eq_def]
  simp only [hsep.1, hsep.2, hback, Bool.false_eq_true, if_false]

theorem nextWordScan_eq (z : Bytes) : nextWordScan isCmd z = nextWordFrom isCmd [] z := by
  match z with
  | [] => exact (nextWordFrom_end .input).symm
  | c :: rest =>
    rw [nextWordScan]
    split
    · rename_i hopens
      simp only [Bool.or_eq_true, beq_iff_eq] at hopens
      rcases hopens with rfl | rfl
      · exact (nextWordFrom_symbol (separates_opener rfl) (by decide) rest).symm
      · exact (nextWordFrom_symbol (separates_opener rfl) (by decide) rest).symm
    · rfl

theorem nextWordFrom_word {w rest : Bytes} (h : Word isCmd w rest) :
    nextWordFrom isCmd [] (w ++ rest) = ([], w.length) := by
  induction h with
  | done hend => exact nextWordFrom_end hend
  | lone => exact nextWordFrom_lone
  | escape hd _ ih =>
    rw [cons_append, cons_append, nextWordFrom_escape hd, ih]
    rfl
  | plain hsep hback hopened _ ih =>
    rw [cons_append, nextWordFrom_symbol hsep hback, hopened, ih]
    rfl
  | nested hopened hb _ ih =>
    rw [cons_append, nextWordFrom_symbol (separates_opener hopened)
      (ne_backslash_of_opened hopened), hopened,
      append_assoc, (scans_nextWordFrom isCmd).body hb, ih]
    simp only [advance, length_cons, length_append, Prod.mk.injEq, true_and]
    omega

theorem exists_word (h : (nextWordFrom isCmd [] z).1 = []) :
    ∃ w rest, z = w ++ rest ∧ Word isCmd w rest := by
  induction hn : z.length using Nat.strongRecOn generalizing z with
  | ind n ih =>
    subst hn
    match z with
    | [] => exact ⟨[], [], rfl, .done .input⟩
    | c :: rest =>
      by_cases hsep : separates isCmd c = true
      · exact ⟨[], c :: rest, rfl, .done (.separator hsep)⟩
      rw [Bool.not_eq_true] at hsep
      by_cases hback : c = chBackslash
      · subst hback
        match rest with
        | [] => exact ⟨[chBackslash], [], rfl, .lone⟩
        | d :: rest =>
          by_cases hd : d = chNewline
          · subst hd
            exact ⟨[], _, rfl, .done .continuation⟩
          rw [nextWordFrom_escape hd] at h
          obtain ⟨w, tail, rfl, hw⟩ := ih rest.length (by simp only [length_cons]; omega) h rfl
          exact ⟨_, tail, rfl, .escape hd hw⟩
      rw [nextWordFrom_symbol hsep hback] at h
      rcases Scope.opened_cases c with hopened | ⟨s, hopened, _⟩
      · rw [hopened] at h
        obtain ⟨w, tail, rfl, hw⟩ := ih rest.length (by simp) h rfl
        exact ⟨_, tail, rfl, .plain hsep hback hopened hw⟩
      · rw [hopened] at h
        obtain ⟨b, after, rfl, hb⟩ := (scans_nextWordFrom isCmd).exists_body h
        simp only [advance, (scans_nextWordFrom isCmd).body hb] at h
        obtain ⟨w, tail, rfl, hw⟩ := ih after.length
          (by simp only [length_cons, length_append]; omega) h rfl
        exact ⟨_, tail, by simp, .nested hopened hb hw⟩

theorem nextWord_eq_ok_iff {n : ℕ} :
    nextWord z isCmd = .ok n ↔ ∃ w rest, z = w ++ rest ∧ n = w.length ∧ Word isCmd w rest := by
  unfold nextWord
  rw [nextWordScan_eq]
  constructor
  · intro h
    split at h
    · rename_i m hscan
      cases h
      obtain ⟨w, rest, rfl, hw⟩ := exists_word (congrArg Prod.fst hscan)
      rw [nextWordFrom_word hw] at hscan
      cases hscan
      exact ⟨w, rest, rfl, rfl, hw⟩
    · cases h
  · rintro ⟨w, rest, rfl, rfl, hw⟩
    rw [nextWordFrom_word hw]

def BracketsCount : List Scope → Prop
  | [] => True
  | s :: _ => s ≠ .brace

theorem nextWordFrom_openBracket {stack : List Scope} (hstack : BracketsCount stack)
    (rest : Bytes) :
    nextWordFrom isCmd stack (chOpenBracket :: rest) =
      advance 1 (nextWordFrom isCmd (.bracket :: stack) rest) := by
  match stack with
  | [] => exact nextWordFrom_symbol (separates_opener rfl) (by decide) rest
  | .brace :: _ => exact absurd rfl hstack
  | .bracket :: below => exact (scans_nextWordFrom isCmd).symbol _ _ _ _ (by decide)
  | .quote :: below => exact (scans_nextWordFrom isCmd).symbol _ _ _ _ (by decide)

theorem nextWordFrom_bracket {stack : List Scope} (hstack : BracketsCount stack) (rest : Bytes) :
    (∀ m, nextCommand (chOpenBracket :: rest) = .ok m →
      nextWordFrom isCmd stack (chOpenBracket :: rest) =
        advance m (nextWordFrom isCmd stack ((chOpenBracket :: rest).drop m))) ∧
    (∀ e, nextCommand (chOpenBracket :: rest) = .error e →
      (nextWordFrom isCmd stack (chOpenBracket :: rest)).1 ≠ []) := by
  have hblock {m : ℕ} : nextCommand (chOpenBracket :: rest) = .ok m ↔ _ :=
    nextCommand_opened (.inr rfl) (s := .bracket) rfl
  rw [nextWordFrom_openBracket hstack]
  constructor
  · intro m hm
    obtain ⟨b, after, rfl, rfl, hb⟩ := hblock.mp hm
    rw [(scans_nextWordFrom isCmd).body hb, drop_succ_cons, drop_left]
    rfl
  · intro e he hnil
    obtain ⟨b, after, rfl, hb⟩ := (scans_nextWordFrom isCmd).exists_body hnil
    rw [hblock.mpr ⟨b, after, rfl, rfl, hb⟩] at he
    cases he

end Bare

/-- The scanners against the grammar: `th8NextCommand` succeeds on the texts that start
with a block and ends where it ends, `th8NextWord` succeeds on the texts that start with
a word and ends where it ends, and a bracketed part of a word is a block. -/
theorem scanners_delimit_grammar :
    (∀ z n, nextCommand z = .ok n ↔ ∃ b rest, z = b ++ rest ∧ n = b.length ∧ TextBlock b) ∧
    (∀ z, (∃ n, nextCommand z = .ok n) ↔ ∃ b, b <+: z ∧ TextBlock b) ∧
    (∀ z n b, nextCommand z = .ok n → b <+: z → TextBlock b → b.length = n) ∧
    (∀ isCmd z n, nextWord z isCmd = .ok n ↔
      ∃ w rest, z = w ++ rest ∧ n = w.length ∧ Word isCmd w rest) ∧
    (∀ isCmd stack rest, BracketsCount stack →
      (∀ m, nextCommand (chOpenBracket :: rest) = .ok m →
        nextWordFrom isCmd stack (chOpenBracket :: rest) =
          advance m (nextWordFrom isCmd stack ((chOpenBracket :: rest).drop m))) ∧
      ∀ e, nextCommand (chOpenBracket :: rest) = .error e →
        (nextWordFrom isCmd stack (chOpenBracket :: rest)).1 ≠ []) := by
  refine ⟨fun z n => nextCommand_eq_ok_iff, ?_, ?_, fun isCmd z n => nextWord_eq_ok_iff,
    fun isCmd stack rest h => nextWordFrom_bracket h rest⟩
  · intro z
    constructor
    · rintro ⟨n, hn⟩
      obtain ⟨b, rest, rfl, _, hb⟩ := nextCommand_eq_ok_iff.mp hn
      exact ⟨b, prefix_append b rest, hb⟩
    · rintro ⟨b, ⟨rest, rfl⟩, hb⟩
      exact ⟨b.length, nextCommand_eq_ok_iff.mpr ⟨b, rest, rfl, rfl, hb⟩⟩
  · rintro z n b hn ⟨rest, rfl⟩ hb
    obtain ⟨b', rest', heq, rfl, hb'⟩ := nextCommand_eq_ok_iff.mp hn
    rw [(hb.unique hb' heq).1]

end Th8
