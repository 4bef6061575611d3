import Mathlib.Data.List.TakeWhile
import Th8.Eval.BuilderAgreement
import Th8.Eval.ScriptSplit
import Th8.Lists.RoundTrip

/-!
# Quoted elements as words of a script

The tokenizer of scripts and the list library are separate code with separate ideas of
what is special.  Here the two spellings of an element are read by the tokenizer and by
the substitution of a word.  A bare spelling stands for its element.  So does a braced
one, except that a backslash-newline inside braces is a line continuation to a script:
the quoter only looks for one at the start of a backslash sequence.
-/

namespace Th8

open Support List Nat

/-! ## Spellings outside braces -/

def Inert (c : Byte) : Prop :=
  isSpace c = false ∧ c ≠ chSemicolon ∧ c ≠ chBackslash ∧ c ≠ chQuote ∧
    c ≠ chOpenBracket ∧ c ≠ chDollar

instance (c : Byte) : Decidable (Inert c) := inferInstanceAs (Decidable (_ ∧ _))

/-- The byte `x` behind a backslash stands for `c` in a word. -/
structure WordEscape (x c : Byte) : Prop where
  newline : x ≠ chNewline
  length : ∀ rest, escapeEnd x rest = 2
  bytes : escapeBytes [chBackslash, x] = [c]

/-- `q` spells `e` in a bare word: inert bytes, escapes and, `depth` of them open,
braces that are balanced. -/
inductive Spelled : (depth : ℕ) → (e q : Bytes) → Prop
  | nil : Spelled 0 [] []
  | byte {depth : ℕ} {e q : Bytes} {c : Byte} (hinert : Inert c)
      (hopen : c ≠ chOpenBrace) (hclose : c ≠ chCloseBrace) (h : Spelled depth e q) :
      Spelled depth (c :: e) (c :: q)
  | escape {depth : ℕ} {e q : Bytes} {x c : Byte} (hx : WordEscape x c)
      (h : Spelled depth e q) : Spelled depth (c :: e) (chBackslash :: x :: q)
  | opened {depth : ℕ} {e q : Bytes} (h : Spelled (depth + 1) e q) :
      Spelled depth (chOpenBrace :: e) (chOpenBrace :: q)
  | closed {depth : ℕ} {e q : Bytes} (h : Spelled depth e q) :
      Spelled (depth + 1) (chCloseBrace :: e) (chCloseBrace :: q)

theorem advance_advance (j k : ℕ) (r : List Scope × ℕ) :
    advance j (advance k r) = advance (k + j) r := by
  simp [advance, add_assoc]

variable {d : Byte}

theorem nextWordFrom_pair (isCmd : Bool) (stack : List Scope) (rest : Bytes)
    (hd : stack ≠ [] ∨ d ≠ chNewline) :
    nextWordFrom isCmd stack (chBackslash :: d :: rest) =
      advance 2 (nextWordFrom isCmd stack rest) := by
  rcases stack with _ | ⟨scope, below⟩
  · have hne : (d == chNewline) = false := by simpa using hd
    rw [nextWordFrom.eq_def]
    simp [(by decide : isSpace chBackslash = false), (by decide : chBackslash ≠ chSemicolon), hne]
  · rw [nextWordFrom.eq_def]
    simp

variable {depth : ℕ} {e q : Bytes}

theorem Spelled.nextWordFrom (h : Spelled depth e q) (isCmd : Bool) (rest : Bytes) :
    nextWordFrom isCmd (List.replicate depth .brace) (q ++ rest) =
      advance q.length (Th8.nextWordFrom isCmd [] rest) := by
  induction h with
  | nil => rfl
  | @byte depth e q c hinert hopen hclose _ ih =>
    obtain ⟨hspace, hsemi, hback, hquote, hbracket, -⟩ := hinert
    rw [cons_append, length_cons, ← advance_advance, ← ih]
    rcases depth with _ | depth
    · rw [replicate_zero, nextWordFrom.eq_def]
      simp [hspace, hsemi, hback, Scope.opened, hopen, hbracket, hquote]
    · rw [replicate_succ, nextWordFrom.eq_def]
      simp [hback, Scope.read, hopen, hclose]
  | @escape depth e q x c hx _ ih =>
    rw [cons_append, cons_append, nextWordFrom_pair _ _ _ (.inr hx.newline), ih, advance_advance]
    rfl
  | @opened depth e q _ ih =>
    rw [cons_append, length_cons, ← advance_advance, ← ih]
    rcases depth with _ | depth
    · rw [replicate_zero, nextWordFrom.eq_def]
      simp [(by decide : isSpace chOpenBrace = false),
        (by decide : chOpenBrace ≠ chSemicolon), (by decide : chOpenBrace ≠ chBackslash),
        Scope.opened]
    · rw [replicate_succ, nextWordFrom.eq_def]
      simp [(by decide : chOpenBrace ≠ chBackslash), Scope.read, replicate_succ]
  | @closed depth e q _ ih =>
    rw [cons_append, length_cons, ← advance_advance, ← ih, replicate_succ, nextWordFrom.eq_def]
    simp [(by decide : chCloseBrace ≠ chBackslash), Scope.read,
      (by decide : chCloseBrace ≠ chOpenBrace)]

theorem Spelled.pieces {motive : Bytes → Bytes → Prop} (nil : motive [] [])
    (byte : ∀ c e q, c ≠ chBackslash → c ≠ chOpenBracket → c ≠ chDollar →
      motive e q → motive (c :: e) (c :: q))
    (escape : ∀ x c e q, WordEscape x c → motive e q → motive (c :: e) (chBackslash :: x :: q))
    (h : Spelled depth e q) : motive e q := by
  induction h with
  | nil => exact nil
  | byte hinert _ _ _ ih =>
    obtain ⟨-, -, hback, -, hbracket, hdollar⟩ := hinert
    exact byte _ _ _ hback hbracket hdollar ih
  | escape hx _ ih => exact escape _ _ _ _ hx ih
  | opened _ ih => exact byte _ _ _ (by decide) (by decide) (by decide) ih
  | closed _ ih => exact byte _ _ _ (by decide) (by decide) (by decide) ih

def addChars (b : Buffer Byte) (z : Bytes) : Buffer Byte := z.foldl bufAddChar b

theorem addChars_cons (b : Buffer Byte) (c : Byte) (z : Bytes) :
    addChars b (c :: z) = addChars (bufAddChar b c) z := rfl

variable {c : Byte}

theorem nextEscape_wordEscape {x : Byte} (h : WordEscape x c) (rest : Bytes) :
    nextEscape (chBackslash :: x :: rest) = .ok 2 := by
  have hlen : ¬(chBackslash :: x :: rest).length < 2 := by simp
  rw [nextEscape, h.length]
  exact if_neg hlen

theorem substEscape_wordEscape {x : Byte} (h : WordEscape x c) (b : Buffer Byte) :
    substEscape b [chBackslash, x] = bufAddChar b c := by
  rw [substEscape, h.bytes, bufAddChar]

variable {σ : Type}

variable {n : ℕ}

section

variable (h : Spelled depth e q)

include h

theorem Spelled.read {R : Type} {F : ℕ → Bytes → Buffer Byte → R} {G : Buffer Byte → R} (nil :
    ∀ n b, F n [] b = G b)
    (byte : ∀ n c q b, c ≠ chBackslash → c ≠ chOpenBracket → c ≠ chDollar → F (n + 1) (c :: q) b = F
      n q (bufAddChar b c)) (escape : ∀ n x c q b, WordEscape x c → F (n + 1) (chBackslash :: x ::
      q) b = F n q (bufAddChar b c)) (hn : q.length ≤ n) (b : Buffer Byte) :
    F n q b = G (addChars b e) := by
  suffices hall : ∀ n, q.length ≤ n → ∀ b, F n q b = G (addChars b e) from hall n hn b
  refine h.pieces (motive := fun e q => ∀ n, q.length ≤ n → ∀ b, F n q b = G (addChars b e))
    (fun n _ b => nil n b) ?_ ?_
  · intro c e q hback hbracket hdollar ih n hn b
    rcases n with _ | n
    · simp at hn
    · rw [byte n c q b hback hbracket hdollar, ih n (le_of_succ_le_succ hn), addChars_cons]
  · intro x c e q hx ih n hn b
    rcases n with _ | n
    · simp at hn
    · rw [length_cons, length_cons] at hn
      rw [escape n x c q b hx, ih n (by omega), addChars_cons]

theorem Spelled.substChars (env : Env σ)
    (f : σ → Bytes → Except Failure (TString × σ)) (hn : q.length ≤ n) (s : σ) (b : Buffer Byte) :
    substChars env f n s q b = .ok (addChars b e, s) := by
  refine h.read (F := fun n q b => Th8.substChars env f n s q b) (G := fun b => .ok (b, s))
    ?_ ?_ ?_ hn b
  · simp [Th8.substChars]
  · intro n c q b hback hbracket hdollar
    simp [Th8.substChars, hback, hbracket, hdollar]
  · intro n x c q b hx
    simp [Th8.substChars, nextEscape_wordEscape hx, substEscape_wordEscape hx]

theorem Spelled.nrSubstChars (env : Env σ) (hn : q.length ≤ n) (s : σ) (b : Buffer Byte) :
    nrSubstChars env n s q b = .ok (.wordDone (addChars b e) s) := by
  refine h.read (F := fun n q b => Th8.nrSubstChars env n s q b)
    (G := fun b => .ok (.wordDone b s)) ?_ ?_ ?_ hn b
  · simp [Th8.nrSubstChars]
  · intro n c q b hback hbracket hdollar
    simp [Th8.nrSubstChars, hback, hbracket, hdollar]
  · intro n x c q b hx
    simp [Th8.nrSubstChars, nextEscape_wordEscape hx, substEscape_wordEscape hx]

end

/-! ## Spellings inside braces -/

/-- The braces of `e` are balanced, `depth` of them having been opened before, and a
backslash hides the byte behind it. -/
inductive Nested : (depth : ℕ) → (e : Bytes) → Prop
  | nil : Nested 0 []
  | byte {depth : ℕ} {e : Bytes} {c : Byte} (hopen : c ≠ chOpenBrace)
      (hclose : c ≠ chCloseBrace) (hback : c ≠ chBackslash) (h : Nested depth e) :
      Nested depth (c :: e)
  | escape {depth : ℕ} {e : Bytes} {d : Byte} (h : Nested depth e) :
      Nested depth (chBackslash :: d :: e)
  | opened {depth : ℕ} {e : Bytes} (h : Nested (depth + 1) e) : Nested depth (chOpenBrace :: e)
  | closed {depth : ℕ} {e : Bytes} (h : Nested depth e) : Nested (depth + 1) (chCloseBrace :: e)

theorem Nested.nextWordFrom (h : Nested depth e) (isCmd : Bool) (rest : Bytes) :
    nextWordFrom isCmd (List.replicate (depth + 1) .brace) (e ++ chCloseBrace :: rest) =
      advance (e.length + 1) (Th8.nextWordFrom isCmd [] rest) := by
  have hread : ∀ (c : Byte) (below : List Scope) (z : Bytes), c ≠ chBackslash →
      Th8.nextWordFrom isCmd (.brace :: below) (c :: z) =
        advance 1 (Th8.nextWordFrom isCmd (Scope.brace.read below c) z) := by
    intro c below z hc
    rw [nextWordFrom.eq_def]
    simp [hc]
  induction h with
  | nil =>
    rw [nil_append, replicate_succ, hread _ _ _ (by decide)]
    rfl
  | @byte depth e c hopen hclose hback _ ih =>
    have hstay : Scope.brace.read (List.replicate depth .brace) c =
        List.replicate (depth + 1) .brace := by
      simp [Scope.read, hopen, hclose, replicate_succ]
    rw [cons_append, replicate_succ, hread _ _ _ hback, hstay, ih, advance_advance]
    rfl
  | @escape depth e d _ ih =>
    rw [cons_append, cons_append, nextWordFrom_pair _ _ _ (.inl (by simp)), ih, advance_advance]
    rfl
  | @opened depth e _ ih =>
    rw [cons_append, replicate_succ, hread _ _ _ (by decide)]
    change advance 1 (Th8.nextWordFrom isCmd (List.replicate (depth + 1 + 1) .brace) _) = _
    rw [ih, advance_advance]
    rfl
  | @closed depth e _ ih =>
    rw [cons_append, replicate_succ, hread _ _ _ (by decide)]
    change advance 1 (Th8.nextWordFrom isCmd (List.replicate (depth + 1) .brace) _) = _
    rw [ih, advance_advance]
    rfl

/-- What a script reads inside braces: a backslash-newline and the blanks behind it
become a space. -/
def bracedBytes : Bool → Bytes → Bytes
  | _, [] => []
  | inCont, c :: rest =>
    if inCont && (c == chSpace || c == chTab) then bracedBytes true rest
    else if c == chBackslash then
      match rest with
      | [] => [c]
      | d :: rest' =>
        if d == chNewline then chSpace :: bracedBytes true rest'
        else c :: bracedBytes false (d :: rest')
    else c :: bracedBytes false rest

theorem substBraced_eq (inCont : Bool) (z : Bytes) (b : Buffer Byte) :
    substBraced inCont z b = addChars b (bracedBytes inCont z) := by
  fun_induction bracedBytes inCont z generalizing b with
  | case1 => simp [substBraced, addChars]
  | case2 inCont c rest hblank ih =>
    rw [substBraced.eq_def]
    simp only [hblank, if_true]
    exact ih b
  | case3 inCont c hblank hback =>
    rw [substBraced.eq_def]
    simp [hblank, hback, addChars]
  | case4 inCont c hblank hback d rest hnl ih =>
    rw [substBraced.eq_def]
    simp only [hblank, hback, hnl, if_true, addChars_cons]
    exact ih _
  | case5 inCont c hblank hback d rest hnl ih =>
    rw [substBraced.eq_def]
    simp only [hblank, hback, hnl, if_true, addChars_cons]
    exact ih _
  | case6 inCont c rest hblank hback ih =>
    rw [substBraced.eq_def]
    simp only [hblank, hback, addChars_cons]
    exact ih _

def hasContinuation : Bytes → Bool
  | [] => false
  | c :: rest => (c == chBackslash && rest.head? == some chNewline) || hasContinuation rest

theorem bracedBytes_length_le (inCont : Bool) (z : Bytes) :
    (bracedBytes inCont z).length ≤ z.length := by
  fun_induction bracedBytes inCont z with
  | case1 => exact le_refl _
  | case2 inCont c rest hblank ih => exact le_succ_of_le ih
  | case3 inCont c hblank hback => exact le_refl _
  | case4 inCont c hblank hback d rest hnl ih =>
    exact succ_le_succ (le_succ_of_le ih)
  | case5 inCont c hblank hback d rest hnl ih => exact succ_le_succ ih
  | case6 inCont c rest hblank hback ih => exact succ_le_succ ih

theorem bracedBytes_eq_self_iff (z : Bytes) :
    bracedBytes false z = z ↔ hasContinuation z = false := by
  induction z with
  | nil => simp [bracedBytes, hasContinuation]
  | cons c rest ih =>
    by_cases hback : c = chBackslash
    · subst hback
      rcases rest with _ | ⟨d, rest⟩
      · simp [bracedBytes, hasContinuation]
      · by_cases hnl : d = chNewline
        · subst hnl
          have hshort := bracedBytes_length_le true rest
          have hne : bracedBytes false (chBackslash :: chNewline :: rest) ≠
              chBackslash :: chNewline :: rest := by
            intro heq
            have hlen := congrArg List.length heq
            simp [bracedBytes] at hlen
            omega
          simp only [hne, hasContinuation, head?_cons, false_iff]
          simp
        · have hstep : bracedBytes false (chBackslash :: d :: rest) =
              chBackslash :: bracedBytes false (d :: rest) := by
            rw [bracedBytes.eq_def]
            simp [hnl]
          have hhas : hasContinuation (chBackslash :: d :: rest) = hasContinuation (d :: rest) := by
            simp [hasContinuation, hnl]
          rw [hstep, hhas, List.cons.injEq, ih]
          simp
    · have hstep : bracedBytes false (c :: rest) = c :: bracedBytes false rest := by
        rw [bracedBytes.eq_def]
        simp [hback]
      simpa [hstep, hasContinuation, hback] using ih

/-! ## The two spellings of an element -/

def PlainChar (c : Byte) : Prop :=
  c ≠ chOpenBrace ∧ c ≠ chCloseBrace ∧ c ≠ chBackslash ∧ wantsBraces c = false

theorem scanElementFrom_plain (h : PlainChar c) (flags : ElementFlags) (n : ℤ) (z : Bytes) :
    scanElementFrom 0 flags n (c :: z) = scanElementFrom 0 flags n z := by
  obtain ⟨hopen, hclose, hback, hwant⟩ := h
  rw [scanElementFrom, if_neg hopen, if_neg hclose, hwant, if_neg Bool.false_ne_true, if_neg hback]

theorem scanElementFrom_skip (k : ℕ) (flags : ElementFlags) (n : ℤ) (z : Bytes)
    (h : ∀ c ∈ z.take k, PlainChar c) :
    scanElementFrom k flags n z = scanElementFrom 0 flags n z := by
  induction k generalizing z with
  | zero => rfl
  | succ k ih =>
    rcases z with _ | ⟨c, z⟩
    · simp [scanElementFrom]
    · have hc : PlainChar c := h c (by simp)
      have hz : ∀ d ∈ z.take k, PlainChar d := fun d hd => h d (by simp [hd])
      rw [scanElementFrom, scanElementFrom_plain hc, ih z hz]

/-- Behind its second byte `d` a backslash sequence, read in `z`, has only characters
that mean nothing. -/
def ReadsPlain (d : Byte) (z : Bytes) (r : ℕ × Bytes) : Prop :=
  (r.1 = 1 ∧ d = 0) ∨ ∃ k, r.1 = 2 + k ∧ ∀ c ∈ z.take k, PlainChar c

variable {z : Bytes}

theorem ReadsPlain.ite {p : Prop} [Decidable p] {a b : ℕ × Bytes} (ha : p → ReadsPlain d z a)
    (hb : ReadsPlain d z b) :
    ReadsPlain d z (if p then a else b) := by
  by_cases hp : p
  · rw [if_pos hp]
    exact ha hp
  · rwa [if_neg hp]

theorem readsPlain_two (d : Byte) (z w : Bytes) : ReadsPlain d z (2, w) :=
  .inr ⟨0, rfl, by simp⟩

theorem isHexDig_plain (h : isHexDig c = true) : PlainChar c := by
  unfold isHexDig at h
  unfold PlainChar wantsBraces isSpace
  grind

theorem readsPlain_run {run : Bytes} (hrun : run <+: z) (hall : ∀ c ∈ run, isHexDig c = true)
    (w : Bytes) :
    ReadsPlain d z (2 + run.length, w) := by
  refine .inr ⟨run.length, rfl, ?_⟩
  rw [← prefix_iff_eq_take.mp hrun]
  exact fun c hc => isHexDig_plain (hall c hc)

theorem readsPlain_digitsOr {run : Bytes} (hrun : run <+: z) (hall : ∀ c ∈ run, isHexDig c = true)
    (v : UInt64) (keep : UInt64 → UInt64) :
    ReadsPlain d z (digitsOr d (run.length, v) keep) :=
  .ite (fun _ => readsPlain_two _ _ _) (readsPlain_run hrun hall _)

theorem all_takeWhile {p : Byte → Bool} (hp : ∀ c, p c = true → isHexDig c = true)
    (z : Bytes) : ∀ c ∈ z.takeWhile p, isHexDig c = true :=
  fun c hc => hp c (mem_takeWhile_imp hc)

theorem isHexDig_of_isBinDigit (h : eagleIsBinDigit c = true) : isHexDig c = true := by
  unfold eagleIsBinDigit at h
  unfold isHexDig
  grind

theorem isHexDig_of_isDecDigit (h : eagleIsDecDigit c = true) : isHexDig c = true := by
  unfold eagleIsDecDigit at h
  unfold isHexDig
  grind

theorem isHexDig_of_isOctDig (h : isOctDig c = true) : isHexDig c = true := by
  unfold isOctDig at h
  unfold isHexDig
  grind

theorem eagleParseBackslash_readsPlain (hd : d ≠ chNewline) (z : Bytes) :
    ReadsPlain d z (eagleParseBackslash (chBackslash :: d :: z)) := by
  have htwo := fun w => readsPlain_two d z w
  have hrun := fun p : Byte → Bool => takeWhile_prefix (l := z) p
  have hshort := fun (p : Byte → Bool) (n : ℕ) =>
    ( takeWhile_prefix (l := z.take n) p).trans ( take_prefix n z)
  refine .ite (fun hzero => .inl ⟨rfl, hzero⟩) ?_
  iterate 8 refine .ite (fun _ => htwo _) ?_
  refine .ite (fun _ => readsPlain_digitsOr (hrun _)
    (all_takeWhile (fun c => isHexDig_of_isBinDigit) z) _ _) ?_
  refine .ite (fun _ => readsPlain_digitsOr (hrun _)
    (all_takeWhile (fun c => isHexDig_of_isOctDig) z) _ _) ?_
  refine .ite (fun _ => readsPlain_digitsOr (hrun _)
    (all_takeWhile (fun c => isHexDig_of_isDecDigit) z) _ _) ?_
  iterate 2 refine .ite (fun _ => readsPlain_digitsOr (hrun _)
    (all_takeWhile (fun c h => h) z) _ _) ?_
  iterate 2 refine .ite (fun _ => readsPlain_digitsOr (hshort _ _)
    (all_takeWhile (fun c h => h) _) _ _) ?_
  refine .ite (fun hnl => absurd hnl hd) ?_
  exact .ite (fun _ => readsPlain_run (hshort _ _)
    (all_takeWhile (fun c => isHexDig_of_isOctDig) _) _) (htwo _)

theorem scanElementFrom_pair (hd : d ≠ chNewline) (flags : ElementFlags) (n : ℤ) (z : Bytes) :
    scanElementFrom 0 flags n (chBackslash :: d :: z) =
      scanElementFrom 0 flags.orUseBraces n z := by
  have hlast : ¬(d :: z = [] ∨ (d :: z).head? = some chNewline) := by simp [hd]
  rw [scanElementFrom, if_neg (by decide), if_neg (by decide), if_neg (by decide), if_pos rfl,
    if_neg hlast]
  obtain ⟨hone, hzero⟩ | ⟨k, hk, hplain⟩ := eagleParseBackslash_readsPlain hd z
  · have hd0 : PlainChar d := by
      rw [hzero]
      exact ⟨by decide, by decide, by decide, rfl⟩
    rw [hone, scanElementFrom_plain hd0]
  · have hskip : (eagleParseBackslash (chBackslash :: d :: z)).1 - 1 = k + 1 := by omega
    rw [hskip, scanElementFrom, scanElementFrom_skip k _ _ _ hplain]

variable {flags : ElementFlags}

theorem nested_of_scanElementFrom {m : ℕ}
    (hflags : (scanElementFrom 0 flags m z).1.dontUseBraces = false)
    (hlevel : (scanElementFrom 0 flags m z).2 = 0) : Nested m z := by
  induction hn : z.length using Nat.strongRecOn generalizing m flags z with
  | ind n ih =>
    rcases z with _ | ⟨c, z⟩
    · obtain rfl : m = 0 := by simpa [scanElementFrom] using hlevel
      exact .nil
    · obtain rfl : z.length + 1 = n := hn
      by_cases hopen : c = chOpenBrace
      · rw [scanElementFrom, if_pos hopen, ← cast_succ] at hflags hlevel
        rw [hopen]
        exact .opened (ih _ (lt_succ_self _) hflags hlevel rfl)
      by_cases hclose : c = chCloseBrace
      · rw [scanElementFrom, if_neg hopen, if_pos hclose] at hflags hlevel
        rcases m with _ | m
        · rw [cast_zero, if_pos (by decide), scanElementFrom_dontUseBraces rfl] at hflags
          cases hflags
        · rw [cast_succ, add_sub_cancel_right] at hflags hlevel
          rw [hclose]
          exact .closed (ih _ (lt_succ_self _) hflags hlevel rfl)
      by_cases hback : c = chBackslash
      · subst hback
        by_cases hlast : z = [] ∨ z.head? = some chNewline
        · rw [scanElementFrom, if_neg hopen, if_neg hclose, if_neg (by decide), if_pos rfl,
            if_pos hlast, scanElementFrom_dontUseBraces rfl] at hflags
          cases hflags
        · obtain ⟨d, z, rfl⟩ := exists_cons_of_ne_nil (not_or.mp hlast).1
          have hd : d ≠ chNewline := fun h => hlast (.inr (by rw [h]; rfl))
          rw [scanElementFrom_pair hd] at hflags hlevel
          exact .escape (ih _ (lt_of_succ_lt (lt_succ_self _)) hflags hlevel rfl)
      · obtain ⟨flags', hscan⟩ : ∃ flags', scanElementFrom 0 flags m (c :: z) =
            scanElementFrom 0 flags' m z := by
          rw [scanElementFrom, if_neg hopen, if_neg hclose, if_neg hback]
          by_cases hwant : wantsBraces c = true
          · exact ⟨_, if_pos hwant⟩
          · exact ⟨_, if_neg hwant⟩
        rw [hscan] at hflags hlevel
        exact .byte hopen hclose hback (ih _ (lt_succ_self _) hflags hlevel rfl)

theorem convertChar_word (flags : ElementFlags) (c : Byte) :
    (∃ x, convertChar flags c = [chBackslash, x] ∧ WordEscape x c) ∨
      (convertChar flags c = [c] ∧ Inert c ∧
        (c = chOpenBrace ∨ c = chCloseBrace → flags.bracesUnmatched = false)) := by
  unfold convertChar
  split_ifs with hspecial hbrace hunmatched hff hnl hcr htab hvt
  · left
    refine ⟨c, rfl, ?_⟩
    rcases hspecial with rfl | rfl | rfl | rfl | rfl | rfl | rfl <;>
      exact ⟨by decide, fun rest => rfl, rfl⟩
  · left
    refine ⟨c, rfl, ?_⟩
    rcases hbrace with rfl | rfl <;> exact ⟨by decide, fun rest => rfl, rfl⟩
  · right
    refine ⟨rfl, ?_, fun _ => by simpa using hunmatched⟩
    rcases hbrace with rfl | rfl <;> decide
  · exact .inl ⟨0x66, rfl, by decide, fun rest => rfl, by rw [hff]; rfl⟩
  · exact .inl ⟨0x6e, rfl, by decide, fun rest => rfl, by rw [hnl]; rfl⟩
  · exact .inl ⟨0x72, rfl, by decide, fun rest => rfl, by rw [hcr]; rfl⟩
  · exact .inl ⟨0x74, rfl, by decide, fun rest => rfl, by rw [htab]; rfl⟩
  · exact .inl ⟨0x76, rfl, by decide, fun rest => rfl, by rw [hvt]; rfl⟩
  · right
    refine ⟨rfl, ?_, fun h => absurd h hbrace⟩
    unfold Inert isSpace
    grind

theorem spelled_unmatched (h : flags.bracesUnmatched = true) (z : Bytes) :
    Spelled 0 z (z.flatMap (convertChar flags)) := by
  induction z with
  | nil => exact .nil
  | cons c z ih =>
    rw [flatMap_cons]
    obtain ⟨x, hchar, hx⟩ | ⟨hchar, hinert, hbrace⟩ := convertChar_word flags c
    · rw [hchar]
      exact .escape hx ih
    · have hno : ¬(c = chOpenBrace ∨ c = chCloseBrace) := by
        intro hc
        rw [hbrace hc] at h
        cases h
      rw [hchar]
      exact .byte hinert (not_or.mp hno).1 (not_or.mp hno).2 ih

theorem convertChar_matched (h : flags.bracesUnmatched = false)
    (hc : c = chOpenBrace ∨ c = chCloseBrace) : convertChar flags c = [c] := by
  rcases hc with rfl | rfl
  · rw [convertChar, if_neg (by decide), if_pos (.inl rfl), h, if_neg Bool.false_ne_true]
  · rw [convertChar, if_neg (by decide), if_pos (.inr rfl), h, if_neg Bool.false_ne_true]

theorem scanElementFrom_useBraces {skip : ℕ} {n : ℤ}
    (h : flags.useBraces = true ∨ flags.dontUseBraces = true) :
    (scanElementFrom skip flags n z).1.useBraces = true ∨
      (scanElementFrom skip flags n z).1.dontUseBraces = true :=
  scanElementFrom_flags (P := fun f => f.useBraces = true ∨ f.dontUseBraces = true)
    (fun _ _ => .inl rfl) (fun _ _ => .inr rfl) (.inr rfl) h

theorem scanElementFrom_bracesUnmatched {skip : ℕ} {n : ℤ}
    (h : flags.dontUseBraces = true → flags.bracesUnmatched = true) :
    (scanElementFrom skip flags n z).1.dontUseBraces = true →
      (scanElementFrom skip flags n z).1.bracesUnmatched = true :=
  scanElementFrom_flags (P := fun f => f.dontUseBraces = true → f.bracesUnmatched = true)
    (fun _ h => h) (fun _ _ _ => rfl) (fun _ => rfl) h

theorem spelled_matched {flags₀ : ElementFlags} (h : flags.bracesUnmatched = false) {m : ℕ}
    (huse : (scanElementFrom 0 flags₀ m z).1.useBraces = false)
    (hdont : (scanElementFrom 0 flags₀ m z).1.dontUseBraces = false)
    (hlevel : (scanElementFrom 0 flags₀ m z).2 = 0) :
    Spelled m z (z.flatMap (convertChar flags)) := by
  induction z generalizing m flags₀ with
  | nil =>
    obtain rfl : m = 0 := by simpa [scanElementFrom] using hlevel
    exact .nil
  | cons c z ih =>
    have hasks : ∀ skip, scanElementFrom 0 flags₀ m (c :: z) ≠
        scanElementFrom skip flags₀.orUseBraces m z := by
      intro skip heq
      have hyes : (scanElementFrom skip flags₀.orUseBraces m z).1.useBraces = true ∨
          (scanElementFrom skip flags₀.orUseBraces m z).1.dontUseBraces = true :=
        scanElementFrom_useBraces (.inl rfl)
      rw [heq] at huse hdont
      rw [huse, hdont] at hyes
      simp at hyes
    rw [flatMap_cons]
    by_cases hopen : c = chOpenBrace
    · rw [scanElementFrom, if_pos hopen, ← cast_succ] at huse hdont hlevel
      rw [convertChar_matched h (.inl hopen), hopen]
      exact .opened (ih huse hdont hlevel)
    by_cases hclose : c = chCloseBrace
    · rw [scanElementFrom, if_neg hopen, if_pos hclose] at huse hdont hlevel
      rcases m with _ | m
      · rw [cast_zero, if_pos (by decide), scanElementFrom_dontUseBraces rfl] at hdont
        cases hdont
      · have hstay : ¬((m : ℤ) < 0) := by omega
        rw [cast_succ, add_sub_cancel_right, if_neg hstay] at huse hdont hlevel
        rw [convertChar_matched h (.inr hclose), hclose]
        exact .closed (ih huse hdont hlevel)
    have hwant : wantsBraces c = false := by
      by_contra hyes
      rw [Bool.not_eq_false] at hyes
      refine hasks 0 ?_
      rw [scanElementFrom, if_neg hopen, if_neg hclose, if_pos hyes]
    have hback : c ≠ chBackslash := by
      intro hback
      by_cases hlast : z = [] ∨ z.head? = some chNewline
      · rw [scanElementFrom, if_neg hopen, if_neg hclose, hwant, if_neg Bool.false_ne_true,
          if_pos hback, if_pos hlast, scanElementFrom_dontUseBraces rfl] at hdont
        cases hdont
      · refine hasks ((eagleParseBackslash (c :: z)).1 - 1) ?_
        rw [scanElementFrom, if_neg hopen, if_neg hclose, hwant, if_neg Bool.false_ne_true,
          if_pos hback, if_neg hlast]
    rw [scanElementFrom_plain ⟨hopen, hclose, hback, hwant⟩] at huse hdont hlevel
    obtain ⟨x, hchar, hx⟩ | ⟨hchar, hinert, -⟩ := convertChar_word flags c
    · rw [hchar]
      exact .escape hx (ih huse hdont hlevel)
    · rw [hchar]
      exact .byte hinert hopen hclose (ih huse hdont hlevel)

def writtenInBraces (e : Bytes) : Bool :=
  match e with
  | [] => true
  | c :: _ =>
    (if c = chHash then (eagleScanCountedElement e).orUseBraces
      else eagleScanCountedElement e).braces

inductive ListWord (e : Bytes) : Bytes → Prop
  | braced (hbraces : writtenInBraces e = true) (hnested : Nested 0 e) :
      ListWord e (chOpenBrace :: e ++ [chCloseBrace])
  | bare {c : Byte} {p : Bytes} (hbraces : writtenInBraces e = false)
      (hspelled : Spelled 0 e (c :: p)) (hopen : c ≠ chOpenBrace) (hhash : c ≠ chHash) :
      ListWord e (c :: p)

theorem eagleScanCountedElement_bracesUnmatched
    (h : (eagleScanCountedElement e).dontUseBraces = true) :
    (eagleScanCountedElement e).bracesUnmatched = true := by
  have hopening : (openingFlags e).dontUseBraces = true →
      (openingFlags e).bracesUnmatched = true := by
    unfold openingFlags
    split_ifs <;> exact fun h => absurd h Bool.false_ne_true
  unfold eagleScanCountedElement at h ⊢
  simp only at h ⊢
  split at h
  · rename_i hlevel
    rw [if_pos hlevel]
    rfl
  · rename_i hlevel
    rw [if_neg hlevel]
    exact scanElementFrom_bracesUnmatched hopening h

theorem spelled_of_not_braces (hbraces : (eagleScanCountedElement e).braces = false) :
    Spelled 0 e (e.flatMap (convertChar (eagleScanCountedElement e))) := by
  by_cases hunmatched : (eagleScanCountedElement e).bracesUnmatched = true
  · exact spelled_unmatched hunmatched e
  · have hdont : (eagleScanCountedElement e).dontUseBraces = false := by
      by_contra hyes
      exact hunmatched (eagleScanCountedElement_bracesUnmatched (by simpa using hyes))
    have huse : (eagleScanCountedElement e).useBraces = false := by
      simpa [ElementFlags.braces, hdont] using hbraces
    obtain ⟨hflags, hlevel⟩ := balanced_of_eagleScanCountedElement hdont
    have hscan : eagleScanCountedElement e = (scanElementFrom 0 (openingFlags e) 0 e).1 := by
      simp [eagleScanCountedElement, hlevel]
    rw [hscan] at huse
    exact spelled_matched (by simpa using hunmatched) huse hflags hlevel

theorem listWord_quoteElement (e : Bytes) : ListWord e (quoteElement e) := by
  rcases e with _ | ⟨c, rest⟩
  · exact .braced rfl .nil
  · unfold quoteElement eagleConvertCountedElement
    simp only
    by_cases hbraces : (if c = chHash then (eagleScanCountedElement (c :: rest)).orUseBraces
        else eagleScanCountedElement (c :: rest)).braces = true
    · rw [if_pos hbraces]
      obtain ⟨hflags, hlevel⟩ := balanced_of_braces hbraces
      exact .braced hbraces (nested_of_scanElementFrom hflags hlevel)
    · rw [if_neg hbraces]
      have hbare : writtenInBraces (c :: rest) = false := Bool.eq_false_iff.mpr hbraces
      by_cases hopen : c = chOpenBrace
      · subst hopen
        rw [if_pos rfl]
        refine .bare hbare (.escape ⟨by decide, fun z => rfl, rfl⟩ ?_) (by decide) (by decide)
        exact spelled_unmatched rfl rest
      · rw [if_neg hopen]
        by_cases hhash : c = chHash
        · subst hhash
          rw [if_pos rfl] at hbraces ⊢
          have hdont : (eagleScanCountedElement (chHash :: rest)).dontUseBraces = true := by
            simpa [ElementFlags.braces, ElementFlags.orUseBraces] using hbraces
          refine .bare hbare (.escape ⟨by decide, fun z => rfl, rfl⟩ ?_) (by decide) (by decide)
          exact spelled_unmatched (eagleScanCountedElement_bracesUnmatched hdont) rest
        · simp only [if_neg hhash] at hbraces ⊢
          have hspelled := spelled_of_not_braces (Bool.eq_false_iff.mpr hbraces)
          rw [flatMap_cons] at hspelled ⊢
          obtain ⟨x, hchar, -⟩ | ⟨hchar, -, -⟩ :=
            convertChar_word (eagleScanCountedElement (c :: rest)) c
          · rw [hchar] at hspelled ⊢
            exact .bare hbare hspelled (by decide) (by decide)
          · rw [hchar] at hspelled ⊢
            exact .bare hbare hspelled hopen hhash

end Th8
