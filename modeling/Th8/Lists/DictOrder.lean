import Mathlib
import Th8.Lists.MergeSort

/-!
# The order of the dictionary mode

`th8DictCompare` goes from one pair of tokens to the next, where a token is a run of digits or
another byte, and looks at the lengths of the strings when one of them has no token left.  Zeros
in front of a number add to the length and not to the tokens.
-/

namespace Th8

open Support List

namespace Sorting

/-! ## The first difference of two sequences -/

section Tokens

variable {κ : Type} [LinearOrder κ] {x y z : List κ}

def firstDifference : List κ → List κ → ℤ
  | a :: x, b :: y => if a = b then firstDifference x y else signOf (a < b) (b < a)
  | _, _ => 0

theorem firstDifference_cons_self (a : κ) (x y : List κ) :
    firstDifference (a :: x) (a :: y) = firstDifference x y := by
  rw [firstDifference, if_pos rfl]

theorem firstDifference_cons_neg {a b : κ} (x y : List κ) (h : a ≠ b) :
    firstDifference (a :: x) (b :: y) < 0 ↔ a < b := by
  rw [firstDifference, if_neg h, signOf]
  rcases lt_or_gt_of_ne h with hlt | hgt
  · simp [hlt, hlt.not_gt]
  · simp [hgt, hgt.not_gt]

theorem firstDifference_swap (x y : List κ) : firstDifference y x = -firstDifference x y := by
  induction x generalizing y with
  | nil => cases y <;> rfl
  | cons a x ih =>
    cases y with
    | nil => rfl
    | cons b y =>
      by_cases hab : a = b
      · rw [hab, firstDifference_cons_self, firstDifference_cons_self, ih]
      · rw [firstDifference, firstDifference, if_neg hab, if_neg (Ne.symm hab), signOf, signOf]
        omega

theorem firstDifference_eq_zero_iff : firstDifference x y = 0 ↔ x <+: y ∨ y <+: x := by
  induction x generalizing y with
  | nil => cases y <;> simp [firstDifference]
  | cons a x ih =>
    cases y with
    | nil => simp [firstDifference]
    | cons b y =>
      by_cases hab : a = b
      · rw [hab, firstDifference_cons_self, ih, prefix_cons_inj, prefix_cons_inj]
      · have hne : firstDifference (a :: x) (b :: y) ≠ 0 := by
          rw [firstDifference, if_neg hab, signOf]
          rcases lt_or_gt_of_ne hab with hlt | hgt
          · simp [hlt, hlt.not_gt]
          · simp [hgt, hgt.not_gt]
        simp [hne, cons_prefix_cons, hab, Ne.symm hab]

theorem firstDifference_of_prefix (hxy : firstDifference x y = 0) (hyz : firstDifference y z ≠ 0) :
    firstDifference x z = firstDifference y z ∨ x <+: y ∧ x <+: z := by
  induction x generalizing y z with
  | nil => exact .inr ⟨ nil_prefix, nil_prefix⟩
  | cons a x ih =>
    match y, z with
    | [], z => cases z <;> exact absurd rfl hyz
    | b :: y, [] => exact absurd rfl hyz
    | b :: y, c :: z =>
      have hab : a = b := by
        obtain h | h := firstDifference_eq_zero_iff.mp hxy
        · exact (cons_prefix_cons.mp h).1
        · exact (cons_prefix_cons.mp h).1.symm
      subst hab
      by_cases hac : a = c
      · subst hac
        rw [firstDifference_cons_self] at hxy hyz ⊢
        rw [firstDifference_cons_self]
        simpa only [prefix_cons_inj] using ih hxy hyz
      · rw [firstDifference, firstDifference, if_neg hac, if_neg hac]
        exact .inl rfl

theorem firstDifference_trans (hxy : firstDifference x y < 0) (hyz : firstDifference y z < 0) :
    firstDifference x z < 0 := by
  induction x generalizing y z with
  | nil => cases y <;> cases hxy
  | cons a x ih =>
    match y, z with
    | [], z => cases hxy
    | b :: y, [] => cases hyz
    | b :: y, c :: z =>
      by_cases hab : a = b
      · subst hab
        by_cases hac : a = c
        · subst hac
          rw [firstDifference_cons_self] at hxy hyz ⊢
          exact ih hxy hyz
        · rw [firstDifference_cons_neg _ _ hac] at hyz ⊢
          exact hyz
      · have hlt := (firstDifference_cons_neg x y hab).mp hxy
        have hle : b ≤ c := by
          by_cases hbc : b = c
          · exact hbc.le
          · exact ((firstDifference_cons_neg y z hbc).mp hyz).le
        exact (firstDifference_cons_neg x z (hlt.trans_le hle).ne).mpr (hlt.trans_le hle)

end Tokens

section Sizes

variable {ι κ : Type} [LinearOrder κ] (tokens : ι → List κ) (size : ι → ℕ)

def sizedSign (x y : ι) : ℤ :=
  if firstDifference (tokens x) (tokens y) = 0 then signOf (size x < size y) (size y < size x)
  else firstDifference (tokens x) (tokens y)

/-- The sizes put `p` between `y` and `x`, though its tokens begin both and `x` is before
`y`. -/
structure Misled (p x y : ι) : Prop where
  left : tokens p <+: tokens x
  right : tokens p <+: tokens y
  differ : firstDifference (tokens x) (tokens y) < 0
  sizeRight : size y ≤ size p
  sizeLeft : size p ≤ size x

structure PreorderSigns (sign : ι → ι → ℤ) (S : Set ι) : Prop where
  opposite : ∀ a ∈ S, ∀ b ∈ S, sign b a = -sign a b
  trans : ∀ a ∈ S, ∀ b ∈ S, ∀ c ∈ S, sign a b ≤ 0 → sign b c ≤ 0 → sign a c ≤ 0

variable {tokens size} {x y p : ι}

theorem sizedSign_swap (x y : ι) : sizedSign tokens size y x = -sizedSign tokens size x y := by
  rw [sizedSign, sizedSign, firstDifference_swap (tokens x) (tokens y)]
  by_cases h : firstDifference (tokens x) (tokens y) = 0
  · rw [h, if_pos neg_zero, if_pos rfl, signOf, signOf]
    omega
  · rw [if_neg h, if_neg (neg_ne_zero.mpr h)]

theorem sizedSign_nonpos_iff : sizedSign tokens size x y ≤ 0 ↔
    firstDifference (tokens x) (tokens y) < 0 ∨
      firstDifference (tokens x) (tokens y) = 0 ∧ size x ≤ size y := by
  unfold sizedSign
  split_ifs with h
  · rw [signOf_nonpos_iff]
    omega
  · omega

theorem preorderSigns_iff (S : Set ι) :
    PreorderSigns (sizedSign tokens size) S ↔
      ∀ p ∈ S, ∀ x ∈ S, ∀ y ∈ S, ¬Misled tokens size p x y := by
  constructor
  · intro h p hp x hx y hy hm
    have hyp := firstDifference_eq_zero_iff.mpr (.inr hm.right)
    have hpx := firstDifference_eq_zero_iff.mpr (.inl hm.left)
    have hyx := h.trans y hy p hp x hx (sizedSign_nonpos_iff.mpr (.inr ⟨hyp, hm.sizeRight⟩))
      (sizedSign_nonpos_iff.mpr (.inr ⟨hpx, hm.sizeLeft⟩))
    have hdiffer := hm.differ
    rw [sizedSign_nonpos_iff, firstDifference_swap (tokens x) (tokens y)] at hyx
    omega
  · intro h
    refine ⟨fun a _ b _ => sizedSign_swap a b, fun a ha b hb c hc hab hbc => ?_⟩
    rw [sizedSign_nonpos_iff] at hab hbc ⊢
    have hswap (x y : ι) := firstDifference_swap (tokens x) (tokens y)
    obtain hab | ⟨hab, hsab⟩ := hab
    · obtain hbc | ⟨hbc, hsbc⟩ := hbc
      · exact .inl (firstDifference_trans hab hbc)
      · -- `c` may begin both
        have hcb : firstDifference (tokens c) (tokens b) = 0 := by rw [hswap, hbc, neg_zero]
        have hba : firstDifference (tokens b) (tokens a) ≠ 0 := by rw [hswap]; omega
        obtain heq | ⟨hpb, hpa⟩ := firstDifference_of_prefix hcb hba
        · rw [hswap, hswap a b] at heq
          omega
        · refine .inr ⟨firstDifference_eq_zero_iff.mpr (.inr hpa), ?_⟩
          by_contra hsize
          exact h c hc a ha b hb ⟨hpa, hpb, hab, hsbc, (not_le.mp hsize).le⟩
    · obtain hbc | ⟨hbc, hsbc⟩ := hbc
      · -- `a` may begin both
        obtain heq | ⟨hpb, hpc⟩ := firstDifference_of_prefix hab hbc.ne
        · exact .inl (heq ▸ hbc)
        · refine .inr ⟨firstDifference_eq_zero_iff.mpr (.inl hpc), ?_⟩
          by_contra hsize
          exact h a ha b hb c hc ⟨hpb, hpc, hbc, (not_le.mp hsize).le, hsab⟩
      · by_cases hac : firstDifference (tokens a) (tokens c) = 0
        · exact .inr ⟨hac, hsab.trans hsbc⟩
        · have hba : firstDifference (tokens b) (tokens a) = 0 := by rw [hswap, hab, neg_zero]
          obtain heq | ⟨hpa, hpc⟩ := firstDifference_of_prefix hba hac
          · exact absurd (heq.symm.trans hbc) hac
          · refine .inl (not_le.mp fun hge => ?_)
            have hca : firstDifference (tokens c) (tokens a) < 0 := by rw [hswap]; omega
            exact h b hb c hc a ha ⟨hpc, hpa, hca, hsab, hsbc⟩

end Sizes

/-! ## The tokens of a string -/

/-- A number counts as much as the digit zero against other bytes, and against numbers by its
digits behind the zeros, longer ones first. -/
abbrev DictToken : Type := ℕ ×ₗ ℕ ×ₗ List ℕ

def runToken (run : Bytes) : DictToken :=
  let sig := run.dropWhile (· == 0x30)
  toLex (0x30, toLex (sig.length, sig.map UInt8.toNat))

def letterToken (c : Byte) : DictToken := toLex ((foldLetter c).toNat, toLex (0, []))

def headToken (c : Byte) (rest : Bytes) : DictToken :=
  if isDecimal c then runToken (c :: rest.takeWhile isDecimal) else letterToken c

def dictTokens : Bytes → List DictToken
  | [] => []
  | c :: rest =>
    headToken c rest :: dictTokens (if isDecimal c then rest.dropWhile isDecimal else rest)
termination_by z => z.length
decreasing_by
  have hlen := (dropWhile_sublist (l := rest) isDecimal).length_le
  rw [length_cons]
  split <;> omega

def dictSign : Bytes → Bytes → ℤ := sizedSign dictTokens List.length

theorem compareDigits_eq (a b : Bytes) : compareDigits a b =
    signOf (runToken a < runToken b) (runToken b < runToken a) := by
  unfold compareDigits runToken
  generalize a.dropWhile (· == 0x30) = x
  generalize b.dropWhile (· == 0x30) = y
  simp only [Prod.Lex.toLex_lt_toLex, lt_irrefl, false_or, true_and]
  by_cases hlen : x.length = y.length
  · have hmemcmp : asciiCompare x y = Strings.memcmp x y := by
      have hx : x.take (min x.length y.length) = x := by simp [hlen]
      have hy : y.take (min x.length y.length) = y := by simp [hlen]
      unfold asciiCompare
      simp only
      rw [hx, hy, hlen]
      split_ifs with h
      · rw [h, signOf, if_neg (lt_irrefl _), sub_zero]
      · rfl
    simp only [hlen, ne_eq, not_true, if_false, lt_irrefl, false_or, true_and]
    rw [← hmemcmp, asciiCompare_eq]
  · simp only [ne_eq, hlen, not_false_iff, if_true, Ne.symm hlen, false_and, or_false]
    unfold signOf
    split_ifs <;> omega

theorem isDecimal_foldLetter (c : Byte) : isDecimal (foldLetter c) = isDecimal c := by
  have hall : ∀ m < 256, isDecimal (foldLetter (UInt8.ofNat m)) = isDecimal (UInt8.ofNat m) := by
    decide +kernel
  simpa using hall c.toNat c.toNat_lt

theorem compareLetters_eq {c d : Byte} (h : ¬(isDecimal c = true ∧ isDecimal d = true))
    (x y : Bytes) : signOf (foldLetter c < foldLetter d) (foldLetter d < foldLetter c) =
      signOf (headToken c x < headToken d y) (headToken d y < headToken c x) := by
  have hc := isDecimal_foldLetter c
  have hd := isDecimal_foldLetter d
  unfold headToken runToken letterToken signOf
  generalize foldLetter c = c' at hc ⊢
  generalize foldLetter d = d' at hd ⊢
  have hrange (b : Byte) : isDecimal b = true ↔ 48 ≤ b.toNat ∧ b.toNat ≤ 57 := by
    rw [isDecimal, Bool.and_eq_true, decide_eq_true_eq, decide_eq_true_eq,
      UInt8.le_iff_toNat_le, UInt8.le_iff_toNat_le]
    rfl
  have hc' := hrange c'
  have hd' := hrange d'
  rw [hc] at hc'
  rw [hd] at hd'
  simp only [UInt8.lt_iff_toNat_lt]
  cases hcd : isDecimal c <;> cases hdd : isDecimal d <;>
    simp_all [Prod.Lex.toLex_lt_toLex] <;> split_ifs <;> omega

theorem dictLoop_yields {σ : Type} {interp : SortInterp σ} (h : Uninterrupted interp)
    (nA nB ia ib : ℕ) (zA zB : Bytes) :
    Yields (dictLoop interp nA nB ia ib zA zB)
      (if firstDifference (dictTokens zA) (dictTokens zB) = 0 then signOf (nA < nB) (nB < nA)
        else firstDifference (dictTokens zA) (dictTokens zB)) := by
  have hpolls (i n : ℕ) : Yields (pollRange interp i n) () := by
    induction n generalizing i with
    | zero => exact Yields.pure _
    | succ n ih => exact (h.pollAt i).bind (ih (i + 1))
  have hstep {a b : DictToken} {x y : List DictToken} {cmp size : ℤ}
      {rest : SortRun σ ℤ} (hcmp : cmp = signOf (a < b) (b < a))
      (hrest : cmp = 0 →
        Yields rest (if firstDifference x y = 0 then size else firstDifference x y)) :
      Yields (if cmp ≠ 0 then pure cmp else rest)
        (if firstDifference (a :: x) (b :: y) = 0 then size
          else firstDifference (a :: x) (b :: y)) := by
    by_cases hab : a = b
    · have hzero : cmp = 0 := by rw [hcmp, hab, signOf, if_neg (lt_irrefl b), sub_zero]
      rw [if_neg (not_not.mpr hzero), hab, firstDifference_cons_self]
      exact hrest hzero
    · have hdiff : firstDifference (a :: x) (b :: y) = cmp := by
        rw [firstDifference, if_neg hab, hcmp]
      have hne : cmp ≠ 0 := by
        rw [hcmp, signOf]
        rcases lt_or_gt_of_ne hab with hlt | hgt
        · simp [hlt, hlt.not_gt]
        · simp [hgt, hgt.not_gt]
      rw [if_pos hne, hdiff, if_neg hne]
      exact Yields.pure cmp
  fun_induction dictLoop interp nA nB ia ib zA zB with
  | case1 ia ib ca restA cb restB ihRun ihLetter =>
    refine (h.pollAt ia).bind ?_
    rw [dictTokens, dictTokens]
    by_cases hdec : isDecimal ca = true ∧ isDecimal cb = true
    · rw [if_pos hdec]
      refine (hpolls ia _).bind ((hpolls ib _).bind (hstep ?_ fun _ => ?_))
      · rw [compareDigits_eq, headToken, headToken, if_pos hdec.1, if_pos hdec.2]
      · rw [if_pos hdec.1, if_pos hdec.2]
        exact ihRun
    · rw [if_neg hdec]
      refine hstep (compareLetters_eq hdec _ _) fun hzero => ?_
      have hletters : foldLetter ca = foldLetter cb := by
        rw [signOf] at hzero
        by_contra hne
        rcases UInt8.lt_or_lt_of_ne hne with hlt | hgt
        · simp [hlt, UInt8.lt_asymm hlt] at hzero
        · simp [hgt, UInt8.lt_asymm hgt] at hzero
      have hsame : isDecimal ca = isDecimal cb := by
        rw [← isDecimal_foldLetter, hletters, isDecimal_foldLetter]
      rw [hsame, and_self, Bool.not_eq_true] at hdec
      rw [hsame, hdec]
      exact ihLetter
  | case2 ia ib zA zB hnil =>
    have hzero : firstDifference (dictTokens zA) (dictTokens zB) = 0 := by
      cases zA with
      | nil =>
        rw [dictTokens]
        cases dictTokens zB <;> rfl
      | cons ca restA =>
        cases zB with
        | nil =>
          rw [dictTokens, dictTokens]
          rfl
        | cons cb restB => exact absurd rfl (hnil _ _ _ _ rfl)
    rw [if_pos hzero]
    exact Yields.pure _

/-- `th8DictCompare` orders the strings of a set exactly if no string in it is taken to be
longer than it reads. -/
theorem dictCompare_preorder_iff {σ : Type} (interp : SortInterp σ) (h : Uninterrupted interp) :
    (∀ a b, Yields (dictCompare interp a b) (dictSign a b)) ∧
      ∀ S, PreorderSigns dictSign S ↔
        ∀ p ∈ S, ∀ x ∈ S, ∀ y ∈ S, ¬Misled dictTokens List.length p x y :=
  ⟨fun a b => dictLoop_yields h _ _ _ _ a b, preorderSigns_iff⟩

theorem dictCompare_numbers :
    Yields (dictCompare quietInterp (ascii "a10") (ascii "A9"))
      (dictSign (ascii "a10") (ascii "A9")) :=
  (dictCompare_preorder_iff quietInterp fun s => ⟨s, rfl⟩).1 _ _

/-- `01` is taken for the equal of `1a` and of `1b`. -/
theorem dictCompare_not_transitive : ∃ a b c u v w, Yields (dictCompare quietInterp a b) u ∧
    Yields (dictCompare quietInterp b c) v ∧ Yields (dictCompare quietInterp a c) w ∧
      u ≤ 0 ∧ v ≤ 0 ∧ 0 < w := by
  have hquiet : Uninterrupted quietInterp := fun s => ⟨s, rfl⟩
  have hsigns : dictSign (ascii "1b") (ascii "01") ≤ 0 ∧
      dictSign (ascii "01") (ascii "1a") ≤ 0 ∧ 0 < dictSign (ascii "1b") (ascii "1a") := by
    decide +kernel
  exact ⟨ascii "1b", ascii "01", ascii "1a", _, _, _, dictLoop_yields hquiet _ _ _ _ _ _,
    dictLoop_yields hquiet _ _ _ _ _ _, dictLoop_yields hquiet _ _ _ _ _ _, hsigns⟩

end Sorting

end Th8
