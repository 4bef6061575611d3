import Mathlib
import Th8.Eval.WordBuilder
import Th8.Support.Scanner

/-!
# What a word is made of

`th8SubstWord` reads a word as a sequence of plain bytes, escape sequences, variables and
commands, and substitutes each where it has read it.  The sequence depends on the bytes only.
-/

namespace Th8

open Support List

inductive Piece where
  | text (c : Byte)
  | escape (zEsc : Bytes)
  | command (script : Bytes)
  | variable (zVar : Bytes)
deriving DecidableEq

/-- One round of the substitution loop of `th8SubstWord`. -/
def pieceStep (z : Bytes) : List Piece × (Bytes ⊕ Option Failure) :=
  match z with
  | [] => ([], .inr none)
  | c :: rest =>
    if c == chBackslash then
      match nextEscape z with
      | .error e => ([], .inr (some e))
      | .ok nEsc => ([.escape (z.take nEsc)], .inl (z.drop nEsc))
    else if c == chOpenBracket then
      match nextCommand z with
      | .error e => ([], .inr (some e))
      | .ok nCmd => ([.command ((z.drop 1).take (nCmd - 2))], .inl (z.drop nCmd))
    else if c == chDollar then
      match nextVarName z with
      | .error e => ([], .inr (some e))
      | .ok nVar =>
        if nVar ≤ 1 then ([.text chDollar], .inl rest)
        else ([.variable (z.take nVar)], .inl (z.drop nVar))
    else ([.text c], .inl rest)

theorem pieceStep_decreases {z : Bytes} {out : List Piece} {z' : Bytes}
    (h : pieceStep z = (out, .inl z')) : z'.length < z.length := by
  have hdrop : ∀ {z : Bytes} {n : ℕ}, z ≠ [] → 0 < n → (z.drop n).length < z.length := by
    intro z n hne hn
    have hlen := length_pos_of_ne_nil hne
    rw [length_drop]
    omega
  rcases z with _ | ⟨c, rest⟩
  · cases h
  · dsimp only [pieceStep] at h
    split_ifs at h
    · rcases hesc : nextEscape (c :: rest) with e | nEsc
      · simp only [hesc] at h
        cases h
      · simp only [hesc] at h
        cases h
        exact hdrop (cons_ne_nil _ _) (nextEscape_pos hesc)
    · rcases hcmd : nextCommand (c :: rest) with e | nCmd
      · simp only [hcmd] at h
        cases h
      · simp only [hcmd] at h
        cases h
        exact hdrop (cons_ne_nil _ _) (nextCommand_pos hcmd)
    · rcases hvar : nextVarName (c :: rest) with e | nVar
      · simp only [hvar] at h
        cases h
      · simp only [hvar] at h
        split_ifs at h
        · cases h
          exact Nat.lt_succ_self _
        · cases h
          exact hdrop (cons_ne_nil _ _) (nextVarName_pos hvar)
    · cases h
      exact Nat.lt_succ_self _

/-- The reading that the substitution loop of `th8SubstWord` does. -/
def pieceScanner : Scanner Bytes Piece (Option Failure) where
  step := pieceStep
  measure := List.length
  decreases := @pieceStep_decreases

/-- The inside of a brace-delimited word: a backslash-newline and the blanks after it are an
escape sequence. -/
def bracedPieces : Bool → Bytes → List Piece
  | _, [] => []
  | inCont, c :: rest =>
    if inCont && (c == chSpace || c == chTab) then bracedPieces true rest
    else if c == chBackslash then
      match rest with
      | [] => [.text c]
      | d :: rest' =>
        if d == chNewline then .escape [c, d] :: bracedPieces true rest'
        else .text c :: bracedPieces false (d :: rest')
    else .text c :: bracedPieces false rest

def wordPieces (zWord : Bytes) : List Piece × Option Failure :=
  if isBraced zWord then (bracedPieces false (inner zWord), none)
  else if isQuoted zWord then pieceScanner.run (inner zWord)
  else pieceScanner.run zWord

/-! ## Substitution is a run over the parts -/

section Substitution

variable {σ : Type} (env : Env σ) (subst : σ → Bytes → Except Failure (TString × σ))

def substPiece (r : Buffer Byte × σ) : Piece → Except Failure (Buffer Byte × σ)
  | .text c => .ok (bufAddChar r.1 c, r.2)
  | .escape zEsc => .ok (substEscape r.1 zEsc, r.2)
  | .command script => do
    let (res, s') ← env.eval r.2 script
    return (bufWrite 1 r.1 res.bytes res.tags, s')
  | .variable zVar => do
    let (res, s') ← substVarName env subst r.2 zVar
    return (bufWrite 1 r.1 res.bytes res.tags, s')

def substPieces (r : Buffer Byte × σ) (pieces : List Piece × Option Failure) :
    Except Failure (Buffer Byte × σ) := do
  let r' ← pieces.1.foldlM (substPiece env subst) r
  match pieces.2 with
  | none => return r'
  | some e => .error e

variable {env subst}

theorem substPieces_cons (r : Buffer Byte × σ) (p : Piece) (pieces : List Piece × Option Failure) :
    substPieces env subst r (p :: pieces.1, pieces.2) =
      substPiece env subst r p >>= fun r' => substPieces env subst r' pieces := by
  simp only [substPieces, foldlM_cons, bind_assoc]

variable {z : Bytes}

theorem substPieces_next {z' : Bytes} {p : Piece} (r : Buffer Byte × σ)
    (h : pieceScanner.step z = ([p], .inl z')) :
    substPieces env subst r (pieceScanner.run z) =
      substPiece env subst r p >>= fun r' => substPieces env subst r' (pieceScanner.run z') := by
  rw [pieceScanner.run_of_next h]
  exact substPieces_cons r p (pieceScanner.run z')

theorem substPieces_done (r : Buffer Byte × σ) (h : pieceScanner.step z = ([], .inr none)) :
    substPieces env subst r (pieceScanner.run z) = .ok r := by
  rw [pieceScanner.run_of_stop h]
  rfl

theorem substPieces_malformed {e : Failure} (r : Buffer Byte × σ)
    (h : pieceScanner.step z = ([], .inr (some e))) :
    substPieces env subst r (pieceScanner.run z) = .error e := by
  rw [pieceScanner.run_of_stop h]
  rfl

theorem substChars_eq_pieces {fuel : ℕ} (s : σ) (output : Buffer Byte) (hfuel : z.length ≤ fuel) :
    substChars env subst fuel s z output =
      substPieces env subst (output, s) (pieceScanner.run z) := by
  induction fuel generalizing z s output with
  | zero =>
    obtain rfl := eq_nil_of_length_eq_zero (Nat.le_zero.mp hfuel)
    rw [substChars, substPieces_done _ rfl]
  | succ fuel ih =>
    rcases z with _ | ⟨c, rest⟩
    · rw [substChars, substPieces_done _ rfl]
    · have hdrop : ∀ {n : ℕ} (s : σ) (output : Buffer Byte), 0 < n →
          substChars env subst fuel s ((c :: rest).drop n) output =
            substPieces env subst (output, s) (pieceScanner.run ((c :: rest).drop n)) := by
        intro n s output hn
        refine ih s output ?_
        simp only [length_cons] at hfuel
        rw [length_drop, length_cons]
        omega
      unfold substChars
      by_cases hback : (c == chBackslash) = true
      · have hstep : pieceScanner.step (c :: rest) = _ := if_pos hback
        rw [if_pos hback]
        rcases hesc : nextEscape (c :: rest) with e | nEsc
        · rw [hesc] at hstep
          exact (substPieces_malformed _ hstep).symm
        · rw [hesc] at hstep
          rw [substPieces_next _ hstep]
          exact hdrop _ _ (nextEscape_pos hesc)
      by_cases hopen : (c == chOpenBracket) = true
      · have hstep : pieceScanner.step (c :: rest) = _ := (if_neg hback).trans (if_pos hopen)
        rw [if_neg hback, if_pos hopen]
        rcases hcmd : nextCommand (c :: rest) with e | nCmd
        · rw [hcmd] at hstep
          exact (substPieces_malformed _ hstep).symm
        · rw [hcmd] at hstep
          rw [substPieces_next _ hstep, ok_bind, substPiece, bind_assoc]
          congr 1
          funext r
          exact hdrop _ _ (nextCommand_pos hcmd)
      by_cases hdollar : (c == chDollar) = true
      · have hstep : pieceScanner.step (c :: rest) = _ :=
          (if_neg hback).trans ((if_neg hopen).trans (if_pos hdollar))
        rw [if_neg hback, if_neg hopen, if_pos hdollar]
        rcases hvar : nextVarName (c :: rest) with e | nVar
        · rw [hvar] at hstep
          exact (substPieces_malformed _ hstep).symm
        · rw [hvar] at hstep
          rw [ok_bind]
          by_cases hone : nVar ≤ 1
          · have hstep' := hstep.trans (if_pos hone)
            rw [if_pos hone, substPieces_next _ hstep']
            exact hdrop (n := 1) _ _ Nat.one_pos
          · have hstep' := hstep.trans (if_neg hone)
            rw [if_neg hone, substPieces_next _ hstep', substPiece, bind_assoc]
            congr 1
            funext r
            exact hdrop _ _ (nextVarName_pos hvar)
      · have hstep : pieceScanner.step (c :: rest) = _ :=
          (if_neg hback).trans ((if_neg hopen).trans (if_neg hdollar))
        rw [if_neg hback, if_neg hopen, if_neg hdollar, substPieces_next _ hstep]
        exact hdrop (n := 1) _ _ Nat.one_pos

theorem substBraced_eq_pieces (inCont : Bool) (z : Bytes) (s : σ) (output : Buffer Byte) :
    substPieces env subst (output, s) (bracedPieces inCont z, none) =
      .ok (substBraced inCont z output, s) := by
  have hnext : ∀ (p : Piece) (pieces : List Piece) (output output' : Buffer Byte),
      substPiece env subst (output, s) p = .ok (output', s) →
      substPieces env subst (output, s) (p :: pieces, none) =
        substPieces env subst (output', s) (pieces, none) := by
    intro p pieces output output' hp
    rw [substPieces_cons _ _ (pieces, none), hp, ok_bind]
  fun_induction bracedPieces inCont z generalizing output with
  | case1 => rw [substBraced]; rfl
  | case2 inCont c rest hblank ih =>
    rw [substBraced.eq_def]
    simp only [hblank, if_true]
    exact ih output
  | case3 inCont c hblank hback =>
    rw [substBraced.eq_def]
    simp only [hblank, hback, if_true]
    exact hnext (.text c) [] output _ rfl
  | case4 inCont c hblank hback d rest hd ih =>
    have hescape : substPiece env subst (output, s) (.escape [c, d]) =
        .ok (bufAddChar output chSpace, s) := by
      simp only [beq_iff_eq] at hback hd
      subst hback hd
      rfl
    rw [substBraced.eq_def]
    simp only [hblank, hback, hd, if_true]
    exact (hnext _ _ output _ hescape).trans (ih _)
  | case5 inCont c hblank hback d rest hd ih =>
    rw [substBraced.eq_def]
    simp only [hblank, hback, hd, if_true]
    exact (hnext (.text c) _ output _ rfl).trans (ih _)
  | case6 inCont c rest hblank hback ih =>
    rw [substBraced.eq_def]
    simp only [hblank, hback]
    exact (hnext (.text c) _ output _ rfl).trans (ih _)

theorem substOutput_eq_pieces (s : σ) (zWord : Bytes) :
    substOutput env subst s zWord = substPieces env subst (bufInit, s) (wordPieces zWord) := by
  unfold substOutput wordPieces
  split_ifs
  · exact (substBraced_eq_pieces false (inner zWord) s bufInit).symm
  · exact substChars_eq_pieces s bufInit (inner_length_le zWord)
  · exact substChars_eq_pieces s bufInit (Nat.le_refl _)

end Substitution

def Piece.isText : Piece → Bool
  | .text _ => true
  | _ => false

def IsLiteral (zWord : Bytes) : Prop := ∀ p ∈ (wordPieces zWord).1, p.isText = true

instance (zWord : Bytes) : Decidable (IsLiteral zWord) :=
  inferInstanceAs (Decidable (∀ p ∈ (wordPieces zWord).1, p.isText = true))

def textOf (pieces : List Piece) : Bytes :=
  pieces.filterMap fun
    | .text c => some c
    | _ => none

/-- A literal word is copied, whatever the interpreter does. -/
theorem substOutput_of_isLiteral {σ : Type} {env : Env σ}
    {subst : σ → Bytes → Except Failure (TString × σ)} {zWord : Bytes} (s : σ)
    (hliteral : IsLiteral zWord) (hclosed : (wordPieces zWord).2 = none) :
    substOutput env subst s zWord =
      .ok ((textOf (wordPieces zWord).1).foldl bufAddChar bufInit, s) := by
  have key : ∀ (pieces : List Piece) (output : Buffer Byte), (∀ p ∈ pieces, p.isText = true) →
      substPieces env subst (output, s) (pieces, none) =
        .ok ((textOf pieces).foldl bufAddChar output, s) := by
    intro pieces
    induction pieces with
    | nil => exact fun _ _ => rfl
    | cons p pieces ih =>
      intro output htext
      rcases p with c | _ | _ | _
      · rw [substPieces_cons _ _ (pieces, none)]
        exact ih _ fun q hq => htext q (mem_cons_of_mem _ hq)
      all_goals cases htext _ mem_cons_self
  rw [substOutput_eq_pieces, ← key _ _ hliteral, ← hclosed]

/-! ## Words that cannot be substituted -/

def arrayIndex (zVar : Bytes) : Option Bytes :=
  match zVar with
  | [] => none
  | _ :: zName =>
    let i := (zName.takeWhile (· != chOpenParen)).length
    if zName.head? != some chOpenBrace && i < zName.length &&
        zName.getLast? == some chCloseParen then
      some ((zName.drop (i + 1)).take (zName.length - i - 2))
    else none

/-- No part of the word is malformed, nor one of an index in it.  The first argument bounds
the nesting of indices, as it does in `substWord`. -/
def wordParses : ℕ → Bytes → Bool
  | 0, _ => false
  | fuel + 1, zWord =>
    (wordPieces zWord).2.isNone && (wordPieces zWord).1.all fun
      | .variable zVar => !zVar.isEmpty && (arrayIndex zVar).all (wordParses fuel)
      | _ => true

section Parses

variable {σ : Type} {env : Env σ}

theorem substVarName_of_index (env : Env σ)
    (subst : σ → Bytes → Except Failure (TString × σ)) (s : σ) {zVar idx : Bytes}
    (h : arrayIndex zVar = some idx) :
    ∃ zFull : TString → TString, substVarName env subst s zVar =
      subst s idx >>= fun r => env.getVar r.2 (zFull r.1) >>= fun v => .ok (v, r.2) := by
  rcases zVar with _ | ⟨c, zName⟩
  · cases h
  · obtain ⟨hcond, hidx⟩ := Option.ite_none_right_eq_some.mp h
    cases hidx
    simp only [Bool.and_eq_true, decide_eq_true_eq] at hcond
    obtain ⟨⟨hbrace, hopen⟩, hclose⟩ := hcond
    refine ⟨fun res => ⟨zName.take (zName.takeWhile (· != chOpenParen)).length ++
      [chOpenParen] ++ res.bytes ++ [chCloseParen], res.tags⟩, ?_⟩
    unfold substVarName
    dsimp only
    have hcond : (decide ((zName.takeWhile (· != chOpenParen)).length < zName.length) &&
        zName.getLast? == some chCloseParen) = true := by
      rw [Bool.and_eq_true, decide_eq_true_eq]
      exact ⟨hopen, hclose⟩
    rw [if_neg (by simpa [bne] using hbrace), if_pos hcond]
    rfl

theorem substVarName_of_plain (env : Env σ)
    (subst : σ → Bytes → Except Failure (TString × σ)) (s : σ) {zVar : Bytes}
    (hne : zVar ≠ []) (h : arrayIndex zVar = none) :
    ∃ zName : TString, substVarName env subst s zVar =
      env.getVar s zName >>= fun v => .ok (v, s) := by
  rcases zVar with _ | ⟨c, zName⟩
  · exact absurd rfl hne
  · unfold substVarName
    dsimp only
    by_cases hbrace : (zName.head? == some chOpenBrace) = true
    · exact ⟨_, if_pos hbrace⟩
    · have hindex : ¬(decide ((zName.takeWhile (· != chOpenParen)).length < zName.length) &&
          zName.getLast? == some chCloseParen) = true := by
        intro hindex
        have hsome : arrayIndex (c :: zName) = some _ :=
          if_pos (by simpa [bne, hbrace] using hindex)
        rw [hsome] at h
        cases h
      rw [if_neg hbrace, if_neg hindex]
      exact ⟨_, rfl⟩

theorem substWord_fails {fuel : ℕ} {zWord : Bytes} (h : wordParses fuel zWord = false)
    (env : Env σ) (s : σ) : ∃ e, substWord env fuel s zWord = .error e := by
  induction fuel generalizing zWord s with
  | zero => exact ⟨_, rfl⟩
  | succ fuel ih =>
    rcases hsubst : substOutput env (substWord env fuel) s zWord with e | r
    · exact ⟨e, by rw [substWord, hsubst]; rfl⟩
    · rw [substOutput_eq_pieces] at hsubst
      obtain ⟨r', hloop, hrest⟩ := bind_eq_ok.mp hsubst
      rcases hbad : (wordPieces zWord).2 with _ | e
      · -- Some index does not parse, but the loop has substituted it.
        simp only [wordParses, hbad, Option.isNone_none, Bool.true_and, all_eq_false] at h
        obtain ⟨p, hp, hindex⟩ := h
        obtain ⟨c, c', hpiece⟩ := exists_ok_of_foldlM hloop p hp
        rcases p with _ | _ | _ | zVar
        · exact absurd rfl hindex
        · exact absurd rfl hindex
        · exact absurd rfl hindex
        · obtain ⟨v, hvar, -⟩ := bind_eq_ok.mp hpiece
          have hne : zVar ≠ [] := by
            rintro rfl
            cases hvar
          rcases hidx : arrayIndex zVar with _ | idx
          · simp [hidx, hne] at hindex
          · obtain ⟨zFull, heq⟩ := substVarName_of_index env (substWord env fuel) c.2 hidx
            rw [heq] at hvar
            obtain ⟨r, hr, -⟩ := bind_eq_ok.mp hvar
            have hfail : wordParses fuel idx = false := by
              simpa [hidx, hne] using hindex
            obtain ⟨e, he⟩ := ih hfail c.2
            rw [he] at hr
            cases hr
      · rw [hbad] at hrest
        cases hrest

theorem substWord_succeeds {fuel : ℕ} {zWord : Bytes} {e : Failure}
    (hget : ∀ s zName, ∃ v, env.getVar s zName = .ok v)
    (heval : ∀ s script, ∃ r, env.eval s script = .ok r) (s : σ)
    (hparses : wordParses fuel zWord = true) (h : substWord env fuel s zWord = .error e) :
    e = .static "out of memory" := by
  induction fuel generalizing zWord s with
  | zero => cases hparses
  | succ fuel ih =>
    simp only [wordParses, Bool.and_eq_true, Option.isNone_iff_eq_none, all_eq_true] at hparses
    obtain ⟨hclosed, hindex⟩ := hparses
    rw [substWord] at h
    rcases hsubst : substOutput env (substWord env fuel) s zWord with e' | r
    · rw [hsubst, error_bind, Except.error.injEq] at h
      subst h
      rw [substOutput_eq_pieces, substPieces, hclosed] at hsubst
      rcases hloop : (wordPieces zWord).1.foldlM (substPiece env (substWord env fuel))
          (bufInit, s) with e'' | r
      · rw [hloop, error_bind, Except.error.injEq] at hsubst
        subst hsubst
        obtain ⟨p, hp, c, hpiece⟩ := exists_error_of_foldlM hloop
        rcases p with _ | _ | script | zVar
        · cases hpiece
        · cases hpiece
        · obtain ⟨r, hr⟩ := heval c.2 script
          rw [substPiece, hr] at hpiece
          cases hpiece
        · have hvar := hindex _ hp
          simp only [Bool.and_eq_true, Bool.not_eq_true', isEmpty_eq_false_iff] at hvar
          obtain ⟨hne, hidx⟩ := hvar
          rcases harray : arrayIndex zVar with _ | idx
          · obtain ⟨zName, heq⟩ := substVarName_of_plain env (substWord env fuel) c.2 hne harray
            obtain ⟨v, hv⟩ := hget c.2 zName
            rw [substPiece, heq, hv] at hpiece
            cases hpiece
          · obtain ⟨zFull, heq⟩ := substVarName_of_index env (substWord env fuel) c.2 harray
            rcases hr : substWord env fuel c.2 idx with e' | r
            · rw [substPiece, heq, hr, error_bind, error_bind, Except.error.injEq] at hpiece
              subst hpiece
              exact ih c.2 (by simpa [harray] using hidx) hr
            · obtain ⟨v, hv⟩ := hget r.2 (zFull r.1)
              rw [substPiece, heq, hr, ok_bind, hv] at hpiece
              cases hpiece
      · rw [hloop] at hsubst
        cases hsubst
    · rw [hsubst, ok_bind] at h
      by_cases hfail : r.1.bFail = true
      · exact (Except.error.inj ((if_pos hfail).symm.trans h)).symm
      · cases (if_neg hfail).symm.trans h

end Parses

end Th8
