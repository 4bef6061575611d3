import Mathlib.Data.List.TakeWhile
import Th8.Eval.WordBuilder
import Th8.Parser.NestedContexts

/-!
# The words that lose their delimiters

`th8NextWord` delimits a word by nesting, `th8SubstWord` looks at its first and its last
byte.  The two see the same group unless the word begins with a group that ends inside it
and its last byte is the close byte of that group all the same.
-/

namespace Th8

open Support List

/-! ## Groups -/

namespace Scope

def opener : Scope → Byte
  | brace => chOpenBrace
  | bracket => chOpenBracket
  | quote => chQuote

theorem opened_opener (scope : Scope) : opened scope.opener = [scope] := by
  cases scope <;> rfl

end Scope

def Enclosed (scope : Scope) (zWord : Bytes) : Prop :=
  ∃ body, zWord = scope.opener :: body ∧ contexts.Body scope body

def Straddles (scope : Scope) (zWord : Bytes) : Prop :=
  ∃ body tail, zWord = scope.opener :: (body ++ tail) ∧ contexts.Body scope body ∧
    tail.getLast? = some scope.closer

section Groups

variable {scope : Scope} {isCmd : Bool} {zWord rest : Bytes}

theorem Enclosed.not_straddles (h : Enclosed scope zWord) : ¬Straddles scope zWord := by
  obtain ⟨body, rfl, hbody⟩ := h
  rintro ⟨body', tail, heq, hbody', hlast⟩
  have hsame : body ++ [] = body' ++ tail := by
    rw [append_nil]
    exact (List.cons.inj heq).2
  obtain ⟨-, rfl⟩ := hbody.unique hbody' hsame
  cases hlast

theorem Straddles.ends (h : Straddles scope zWord) :
    1 < zWord.length ∧ zWord.head? = some scope.opener ∧ zWord.getLast? = some scope.closer := by
  obtain ⟨body, tail, rfl, hbody, hlast⟩ := h
  have hpos : 0 < body.length := length_pos_iff.mpr hbody.ne_nil
  have htail : tail ≠ [] := by
    rintro rfl
    cases hlast
  refine ⟨?_, rfl, ?_⟩
  · simp only [length_cons, length_append]
    omega
  · rw [← cons_append, getLast?_append_of_ne_nil _ htail, hlast]

theorem Word.enclosed_or_straddles (h : Word isCmd zWord rest)
    (hhead : zWord.head? = some scope.opener) (hlast : zWord.getLast? = some scope.closer) :
    Enclosed scope zWord ∨ Straddles scope zWord := by
  have hopened := scope.opened_opener
  cases h with
  | done => cases hhead
  | lone =>
    rw [← Option.some.inj hhead] at hopened
    cases hopened
  | escape =>
    rw [← Option.some.inj hhead] at hopened
    cases hopened
  | plain hsep hback hplain =>
    rw [← Option.some.inj hhead, hplain] at hopened
    cases hopened
  | @nested c s body tail _ hnested hbody htail =>
    cases hhead
    rw [hopened] at hnested
    obtain rfl : scope = s := (List.cons.inj hnested).1
    by_cases hnil : tail = []
    · subst hnil
      left
      rw [append_nil]
      exact ⟨body, rfl, hbody⟩
    · right
      rw [← cons_append, getLast?_append_of_ne_nil _ hnil] at hlast
      exact ⟨body, tail, rfl, hbody, hlast⟩

end Groups

theorem isBraced_iff {z : Bytes} :
    isBraced z = true ↔ 1 < z.length ∧ z.head? = some Scope.brace.opener ∧
      z.getLast? = some Scope.brace.closer := by
  simp [isBraced, Scope.opener, Scope.closer, and_assoc]

theorem isQuoted_iff {z : Bytes} :
    isQuoted z = true ↔ 1 < z.length ∧ z.head? = some Scope.quote.opener ∧
      z.getLast? = some Scope.quote.closer := by
  simp [isQuoted, Scope.opener, Scope.closer, and_assoc]

/-- The first and the last byte go only when they delimit one group, and every other word
is substituted from its first byte to its last. -/
structure StripsGroups (zWord : Bytes) : Prop where
  braced : isBraced zWord = true → Enclosed .brace zWord
  quoted : isQuoted zWord = true → Enclosed .quote zWord
  whole : ¬Enclosed .brace zWord → ¬Enclosed .quote zWord →
    ∀ {σ : Type} (env : Env σ) (subst : σ → Bytes → Except Failure (TString × σ)) (s : σ),
      substOutput env subst s zWord = substChars env subst zWord.length s zWord bufInit

theorem Word.stripsGroups_iff {isCmd : Bool} {zWord rest : Bytes} (h : Word isCmd zWord rest) :
    StripsGroups zWord ↔ ¬Straddles .brace zWord ∧ ¬Straddles .quote zWord := by
  constructor
  · intro hstrips
    constructor
    · intro hstraddles
      exact (hstrips.braced (isBraced_iff.mpr hstraddles.ends)).not_straddles hstraddles
    · intro hstraddles
      exact (hstrips.quoted (isQuoted_iff.mpr hstraddles.ends)).not_straddles hstraddles
  · rintro ⟨hbrace, hquote⟩
    have hbraced : isBraced zWord = true → Enclosed .brace zWord := by
      intro hends
      obtain ⟨-, hhead, hlast⟩ := isBraced_iff.mp hends
      exact (h.enclosed_or_straddles hhead hlast).resolve_right hbrace
    have hquoted : isQuoted zWord = true → Enclosed .quote zWord := by
      intro hends
      obtain ⟨-, hhead, hlast⟩ := isQuoted_iff.mp hends
      exact (h.enclosed_or_straddles hhead hlast).resolve_right hquote
    refine ⟨hbraced, hquoted, ?_⟩
    intro hnobrace hnoquote σ env subst s
    unfold substOutput
    rw [if_neg (mt hbraced hnobrace), if_neg (mt hquoted hnoquote)]

/-! ## Behind an expansion prefix -/

theorem body_of_tag {zTag : Bytes} (h : ∀ c ∈ zTag, isTagByte c = true) :
    contexts.Body .brace (zTag ++ [chCloseBrace]) := by
  induction zTag with
  | nil => exact .close _
  | cons c zTag ih =>
    have hc := h c mem_cons_self
    have hne : ∀ d, isTagByte d = false → c ≠ d := by
      rintro d hd rfl
      rw [hc] at hd
      cases hd
    refine .plain (hne _ (by decide)) (hne _ (by decide)) ?_ ?_
    · exact if_neg (hne chOpenBrace (by decide))
    · exact ih fun d hd => h d (mem_cons_of_mem c hd)

section Prefixes

variable {σ : Type} {env : Env σ} {s : σ}

theorem checkExpansionPrefix_shape {zInput : Bytes} {nTag : ℕ} {xExpand : ExpansionProc}
    (h : checkExpansionPrefix env s zInput = .ok (some (nTag, xExpand))) :
    ∃ zTag tail, zInput = chOpenBrace :: (zTag ++ [chCloseBrace] ++ tail) ∧
      zTag.length = nTag ∧ ∀ c ∈ zTag, isTagByte c = true := by
  unfold checkExpansionPrefix at h
  split at h
  swap
  · cases h
  rename_i hstart
  simp only [Bool.and_eq_true, beq_iff_eq, decide_eq_true_eq] at hstart
  obtain ⟨first, rfl⟩ := head?_eq_some_iff.mp hstart.2
  simp only [drop_succ_cons, drop_zero] at h
  generalize htag : first.takeWhile isTagByte = zTag at h
  split at h
  swap
  · cases h
  rename_i c d rest hdrop
  by_cases hclose : (c == chCloseBrace) = true
  swap
  · rw [if_neg hclose] at h
    cases h
  rw [if_pos hclose] at h
  have hsplit : first = zTag ++ c :: d :: rest := by
    have happend : zTag ++ first.drop zTag.length = first := by
      rw [← htag]
      exact prefix_iff_eq_append.mp ( takeWhile_prefix _)
    rw [← hdrop, happend]
  have hlength : zTag.length = nTag := by
    cases zTag with
    | nil => cases h
    | cons e zTag =>
      simp only at h
      split at h
      · exact congrArg Prod.fst (Option.some.inj (Except.ok.inj h))
      · cases h
  refine ⟨zTag, d :: rest, ?_, hlength, ?_⟩
  · rw [hsplit, beq_iff_eq.mp hclose, append_assoc, singleton_append]
  · intro e he
    rw [← htag] at he
    exact mem_takeWhile_imp he

theorem Word.wordRest {isCmd : Bool} {zWord rest : Bytes} {expansion : Expansion}
    (h : Word isCmd zWord rest) (hcheck : checkExpansionPrefix env s zWord = .ok expansion) :
    Word isCmd (wordRest zWord expansion) rest := by
  rcases expansion with _ | ⟨nTag, xExpand⟩
  · exact h
  obtain ⟨zTag, tail, rfl, rfl, htag⟩ := checkExpansionPrefix_shape hcheck
  have hrest : Th8.wordRest (chOpenBrace :: (zTag ++ [chCloseBrace] ++ tail))
      (some (zTag.length, xExpand)) = tail := by
    exact drop_left' (by simp)
  rw [hrest]
  generalize hword : chOpenBrace :: (zTag ++ [chCloseBrace] ++ tail) = zWord at h
  cases h with
  | done => cases hword
  | lone => cases (List.cons.inj hword).1
  | escape => cases (List.cons.inj hword).1
  | plain hsep hback hplain =>
    rw [← (List.cons.inj hword).1] at hplain
    cases hplain
  | nested hopened hbody hw =>
    obtain ⟨rfl, hrest⟩ := List.cons.inj hword
    obtain rfl := (List.cons.inj hopened).1
    obtain ⟨-, rfl⟩ := (body_of_tag htag).unique hbody hrest
    exact hw

variable (env s) in
/-- What `th8SubstWord` is given of a word, unless the word is rejected. -/
def substituted (zWord : Bytes) : Except Failure Bytes :=
  (checkExpansionPrefix env s zWord).map (wordRest zWord)

/-- For every word that `th8NextWord` delimits: what is left of it behind its prefix loses
its first and last byte only as the delimiters of one group, exactly when it does not
begin with a group, end with a close byte of the same kind and have the group end
before. -/
theorem stripsGroups_iff_not_straddles {isCmd : Bool} {zInput : Bytes} {nWord : ℕ}
    (h : nextWord zInput isCmd = .ok nWord) :
    (∀ zWord, substituted env s (zInput.take nWord) = .ok zWord → StripsGroups zWord) ↔
      ∀ zWord, substituted env s (zInput.take nWord) = .ok zWord →
        ¬Straddles .brace zWord ∧ ¬Straddles .quote zWord := by
  obtain ⟨w, rest, rfl, rfl, hw⟩ := nextWord_eq_ok_iff.mp h
  rw [take_left]
  refine forall_congr' fun zWord => imp_congr_right fun hsubst => ?_
  have hword : Word isCmd zWord rest := by
    cases hcheck : checkExpansionPrefix env s w with
    | error e =>
      rw [substituted, hcheck] at hsubst
      cases hsubst
    | ok expansion =>
      rw [substituted, hcheck] at hsubst
      cases hsubst
      exact hw.wordRest hcheck
  exact hword.stripsGroups_iff

end Prefixes

def bareEnv : Env Unit where
  ready := .ok
  getVar _ _ := .error .silent
  eval s _ := .ok (.plain [], s)
  findExpansion _ _ := none

theorem body_of_pair : contexts.Body .brace (ascii "a b\x7d") := by
  have hbytes : ascii "a b\x7d" = [0x61, chSpace, 0x62, contexts.closer .brace] := by decide
  rw [hbytes]
  exact .plain (by decide) (by decide) (by decide) (.plain (by decide) (by decide) (by decide)
    (.plain (by decide) (by decide) (by decide) (.close _)))

/-- The word `{a b}` is stripped as the group it is. -/
theorem stripsGroups_braced : StripsGroups (ascii "\x7ba b\x7d") := by
  have hword : nextWord (ascii "\x7ba b\x7d") true = .ok 5 := by decide
  have hsubst : substituted bareEnv () ((ascii "\x7ba b\x7d").take 5) =
      .ok (ascii "\x7ba b\x7d") := by rfl
  refine (stripsGroups_iff_not_straddles hword).mpr ?_ _ hsubst
  intro zWord hzWord
  rw [hsubst] at hzWord
  cases hzWord
  constructor
  · have henclosed : Enclosed .brace (ascii "\x7ba b\x7d") :=
      ⟨ascii "a b\x7d", by decide, body_of_pair⟩
    exact henclosed.not_straddles
  · intro hstraddles
    exact absurd hstraddles.ends.2.1 (by decide)

/-- The word `{a b}{c}` loses a brace of each of its two groups. -/
theorem not_stripsGroups :
    ¬∀ (zInput : Bytes) (nWord : ℕ) (zWord : Bytes), nextWord zInput true = .ok nWord →
      substituted bareEnv () (zInput.take nWord) = .ok zWord → StripsGroups zWord := by
  intro hall
  have hword : nextWord (ascii "\x7ba b\x7d\x7bc\x7d") true = .ok 8 := by
    decide +kernel
  have hsubst : substituted bareEnv () ((ascii "\x7ba b\x7d\x7bc\x7d").take 8) =
      .ok (ascii "\x7ba b\x7d\x7bc\x7d") := by rfl
  have hstrips := hall _ _ _ hword hsubst
  have hstraddles : Straddles .brace (ascii "\x7ba b\x7d\x7bc\x7d") :=
    ⟨ascii "a b\x7d", ascii "\x7bc\x7d", by decide, body_of_pair, by decide⟩
  exact (hstrips.braced (by decide)).not_straddles hstraddles

end Th8
