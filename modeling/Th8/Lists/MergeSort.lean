import Mathlib.Data.List.Lex
import Th8.Lists.Sorting
import Th8.Support.StableSort

/-!
# The merge sort of `lsort`

Every pass of the sort merges neighbouring runs, whatever their number and the length of the
last one, and the copy back makes the result of a pass the input of the next.  A sort that is
not interrupted, with a comparison that is a total preorder on the elements, therefore sorts
them stably.  An element stays together with its length word.
-/

namespace Th8

open Support List Nat

namespace Sorting

variable {σ : Type} {interp : SortInterp σ}

variable {n : ℕ}

theorem SortArrays.HasCount.elems_length {a : SortArrays} (h : a.HasCount n) :
    a.elems.length = n := by
  rw [SortArrays.elems, length_zip, h.az, h.an, min_self]

theorem readEntry_yields {a : SortArrays} {i : ℕ} (hi : i < a.elems.length) :
    Yields (readEntry a i : SortRun σ _) a.elems[i] := by
  have hlen : i < a.az.length ∧ i < a.an.length := by
    rw [SortArrays.elems, length_zip] at hi
    omega
  have hread : (readEntry a i : SortRun σ _) = pure a.elems[i] := by
    simp [readEntry, SortArrays.elems, hlen]
  rw [hread]
  exact Yields.pure _

theorem writeEntry_yields {a : SortArrays} {i : ℕ} (h : a.HasCount n) (hi : i < n) (e : Bytes × ℕ) :
    ∃ a', Yields (writeEntry a i e : SortRun σ _) a' ∧ a'.HasCount n ∧
      a'.elems = a.elems.set i e := by
  refine ⟨⟨a.az.set i e.1, a.an.set i e.2⟩, ?_, ⟨?_, ?_⟩, ?_⟩
  · have hwrite : (writeEntry a i e : SortRun σ _) = pure ⟨a.az.set i e.1, a.an.set i e.2⟩ := by
      rw [writeEntry, if_pos ⟨h.az ▸ hi, h.an ▸ hi⟩]
    rw [hwrite]
    exact Yields.pure _
  · rw [length_set, h.az]
  · rw [length_set, h.an]
  · exact zip_set a.az a.an i e.1 e.2

theorem checkInt_yields (h : n ≤ intMax) : Yields (checkInt n : SortRun σ Unit) () := by
  rw [checkInt, if_pos h]
  exact Yields.pure _

/-- `Th8_Ready` never asks to stop. -/
def Uninterrupted (interp : SortInterp σ) : Prop := ∀ s, ∃ s', interp.ready s = .ok s'

theorem Uninterrupted.ready (h : Uninterrupted interp) : Yields (ready interp) () := by
  intro s
  obtain ⟨s', hs'⟩ := h s
  refine ⟨s', ?_⟩
  show Sorting.ready interp s = _
  rw [Sorting.ready, hs']

theorem Uninterrupted.pollAt (h : Uninterrupted interp) (i : ℕ) : Yields (pollAt interp i) () := by
  unfold Sorting.pollAt
  split_ifs
  · exact h.ready
  · exact Yields.pure _

section Loops

variable (h : Uninterrupted interp) {a : SortArrays} {n : ℕ} (ha : a.HasCount n)

include h ha

theorem copyRest_yields {iEnd : ℕ} (hend : iEnd ≤ n) (i k : ℕ) {t : SortArrays}
    (ht : t.HasCount n) (hk : k + (iEnd - i) ≤ n) :
    ∃ t', Yields (copyRest interp a iEnd i k t) (k + (iEnd - i), t') ∧ t'.HasCount n ∧
      t'.elems = overwrite t.elems k (stretch a.elems i iEnd) := by
  fun_induction copyRest interp a iEnd i k t with
  | case1 i k t hi ih =>
    have hlen := ha.elems_length
    have hread : Yields (readEntry a i : SortRun σ _) a.elems[i] := readEntry_yields (by omega)
    obtain ⟨t₁, hwrite, ht₁, helems₁⟩ := writeEntry_yields (σ := σ) ht (by omega : k < n) a.elems[i]
    obtain ⟨t', hrest, ht', helems⟩ := ih t₁ ht₁ (by omega)
    have hindex : k + 1 + (iEnd - (i + 1)) = k + (iEnd - i) := by omega
    rw [hindex] at hrest
    refine ⟨t', (h.pollAt k).bind (hread.bind (hwrite.bind hrest)), ht', ?_⟩
    rw [helems, helems₁, overwrite_set (by rw [ht.elems_length]; omega),
      stretch_eq_cons hi (by omega)]
  | case2 i k t hi =>
    have hdone : k + (iEnd - i) = k := by omega
    refine ⟨t, ?_, ht, ?_⟩
    · rw [hdone]
      exact Yields.pure _
    · rw [stretch_eq_nil (by omega), overwrite_nil]

theorem copyBack_yields (iLeft : ℕ) {t : SortArrays} (ht : t.HasCount n) :
    ∃ a', Yields (copyBack interp n iLeft t a) a' ∧ a'.HasCount n ∧
      a'.elems = overwrite a.elems iLeft (stretch t.elems iLeft n) := by
  fun_induction copyBack interp n iLeft t a with
  | case1 iLeft a hi ih =>
    have hlen := ht.elems_length
    have hread : Yields (readEntry t iLeft : SortRun σ _) t.elems[iLeft] :=
      readEntry_yields (by omega)
    obtain ⟨a₁, hwrite, ha₁, helems₁⟩ := writeEntry_yields (σ := σ) ha hi t.elems[iLeft]
    obtain ⟨a', hrest, ha', helems⟩ := ih a₁ ha₁
    refine ⟨a', (h.pollAt iLeft).bind (hread.bind (hwrite.bind hrest)), ha', ?_⟩
    rw [helems, helems₁, overwrite_set (by rw [ha.elems_length]; omega),
      stretch_eq_cons hi (by omega)]
  | case2 iLeft a hi =>
    refine ⟨a, Yields.pure _, ha, ?_⟩
    rw [stretch_eq_nil (by omega), overwrite_nil]

end Loops

/-! ## Merging -/

/-- The comparison of the elements `S` always returns `sign`. -/
def ComparesBy (interp : SortInterp σ) (pCtx : SortCtx) (S : Set (Bytes × ℕ))
    (sign : Bytes × ℕ → Bytes × ℕ → ℤ) : Prop :=
  ∀ x ∈ S, ∀ y ∈ S, Yields (lsortCompare interp pCtx x y) (sign x y)

def InOrder (sign : Bytes × ℕ → Bytes × ℕ → ℤ) (x y : Bytes × ℕ) : Prop := sign x y ≤ 0

instance (sign : Bytes × ℕ → Bytes × ℕ → ℤ) : DecidableRel (InOrder sign) :=
  fun x y => inferInstanceAs (Decidable (sign x y ≤ 0))

section Merging

variable (h : Uninterrupted interp) {pCtx : SortCtx} {S : Set (Bytes × ℕ)}
  {sign : Bytes × ℕ → Bytes × ℕ → ℤ} (hcmp : ComparesBy interp pCtx S sign)
  {a : SortArrays} {n : ℕ} (ha : a.HasCount n) (haS : ∀ x ∈ a.elems, x ∈ S)

include h hcmp ha haS

theorem mergeHeads_yields {iMid iEnd : ℕ} (hmid : iMid ≤ n) (hend : iEnd ≤ n) (i j k : ℕ)
    {t : SortArrays} (ht : t.HasCount n) (hk : k + (iMid - i) + (iEnd - j) ≤ n) :
    ∃ i' j' zs t', Yields (mergeHeads interp pCtx a iMid iEnd i j k t)
        ((i', j', k + zs.length), t') ∧
      zs.length + (iMid - i') + (iEnd - j') = (iMid - i) + (iEnd - j) ∧ t'.HasCount n ∧
      t'.elems = overwrite t.elems k zs ∧
      Merged (InOrder sign) (stretch a.elems i iMid) (stretch a.elems j iEnd)
        (zs ++ stretch a.elems i' iMid ++ stretch a.elems j' iEnd) := by
  fun_induction mergeHeads interp pCtx a iMid iEnd i j k t with
  | case1 i j k t hij ihLeft ihRight =>
    have hlen := ha.elems_length
    have hi : i < a.elems.length := by omega
    have hj : j < a.elems.length := by omega
    have hreadLeft : Yields (readEntry a i : SortRun σ _) a.elems[i] := readEntry_yields hi
    have hreadRight : Yields (readEntry a j : SortRun σ _) a.elems[j] := readEntry_yields hj
    have hsign := hcmp _ (haS _ (getElem_mem hi)) _ (haS _ (getElem_mem hj))
    rw [stretch_eq_cons hij.1 (by omega), stretch_eq_cons hij.2 (by omega)]
    by_cases hle : sign a.elems[i] a.elems[j] ≤ 0
    · obtain ⟨t₁, hwrite, ht₁, helems₁⟩ :=
        writeEntry_yields (σ := σ) ht (by omega : k < n) a.elems[i]
      obtain ⟨i', j', zs, t', hrest, hcount, ht', helems, hmerge⟩ := ihLeft t₁ ht₁ (by omega)
      refine ⟨i', j', a.elems[i] :: zs, t', ?_, ?_, ht', ?_, ?_⟩
      · refine h.ready.bind (hreadLeft.bind (hreadRight.bind (hsign.bind ?_)))
        rw [if_pos hle, length_cons, add_comm zs.length, ← add_assoc]
        exact hwrite.bind hrest
      · rw [length_cons]
        omega
      · rw [helems, helems₁, overwrite_set (by rw [ht.elems_length]; omega)]
      · rw [stretch_eq_cons hij.2 (by omega)] at hmerge
        exact Merged.takeLeft hle hmerge
    · obtain ⟨t₁, hwrite, ht₁, helems₁⟩ :=
        writeEntry_yields (σ := σ) ht (by omega : k < n) a.elems[j]
      obtain ⟨i', j', zs, t', hrest, hcount, ht', helems, hmerge⟩ := ihRight t₁ ht₁ (by omega)
      refine ⟨i', j', a.elems[j] :: zs, t', ?_, ?_, ht', ?_, ?_⟩
      · refine h.ready.bind (hreadLeft.bind (hreadRight.bind (hsign.bind ?_)))
        rw [if_neg hle, length_cons, add_comm zs.length, ← add_assoc]
        exact hwrite.bind hrest
      · rw [length_cons]
        omega
      · rw [helems, helems₁, overwrite_set (by rw [ht.elems_length]; omega)]
      · rw [stretch_eq_cons hij.1 (by omega)] at hmerge
        exact Merged.takeRight hle hmerge
  | case2 i j k t hij =>
    refine ⟨i, j, [], t, Yields.pure _, by simp, ht, (overwrite_nil _ _).symm, ?_⟩
    rw [nil_append]
    rcases not_and_or.mp hij with hi | hj
    · rw [stretch_eq_nil (by omega : iMid ≤ i)]
      exact Merged.leftDone _
    · rw [stretch_eq_nil (by omega : iEnd ≤ j), append_nil]
      exact Merged.rightDone _

omit h hcmp haS in
theorem stretch_second (iLeft width : ℕ) :
    stretch a.elems (min (iLeft + width) n) (min (iLeft + 2 * width) n) =
      ((a.elems.drop iLeft).drop width).take width := by
  have hlen := ha.elems_length
  rw [drop_drop]
  by_cases hfull : iLeft + width ≤ n
  · have hright := stretch_min a.elems (iLeft + width) width
    rw [hlen] at hright
    rw [min_eq_left hfull, ← hright]
    congr 2
    omega
  · rw [stretch_eq_nil (by omega), drop_eq_nil_of_le (by omega), take_nil]

theorem mergeRunsAt_yields {width iLeft : ℕ} (hint : iLeft + 2 * width ≤ intMax)
    (hleft : iLeft < n) {t : SortArrays} (ht : t.HasCount n) :
    ∃ zs t', Yields (mergeRunsAt interp pCtx n width iLeft a t) t' ∧ t'.HasCount n ∧
      t'.elems = overwrite t.elems iLeft zs ∧ iLeft + zs.length = min (iLeft + 2 * width) n ∧
      Merged (InOrder sign) ((a.elems.drop iLeft).take width)
        (((a.elems.drop iLeft).drop width).take width) zs := by
  have hlen := ha.elems_length
  have hlenT := ht.elems_length
  have hfirst := stretch_min a.elems iLeft width
  rw [hlen] at hfirst
  have hmid : min (iLeft + width) n ≤ n := min_le_right _ _
  have hend : min (iLeft + 2 * width) n ≤ n := min_le_right _ _
  obtain ⟨i', j', zs, t₁, hheads, hcount, ht₁, helems₁, hmerge⟩ :=
    mergeHeads_yields h hcmp ha haS hmid hend iLeft (min (iLeft + width) n) iLeft ht (by omega)
  obtain ⟨t₂, hleftRest, ht₂, helems₂⟩ :=
    copyRest_yields h ha hmid i' (iLeft + zs.length) ht₁ (by omega)
  obtain ⟨t₃, hrightRest, ht₃, helems₃⟩ :=
    copyRest_yields h ha hend j' (iLeft + zs.length + (min (iLeft + width) n - i')) ht₂ (by omega)
  have hleftLen : (stretch a.elems i' (min (iLeft + width) n)).length =
      min (iLeft + width) n - i' := stretch_length (by omega)
  have hrightLen : (stretch a.elems j' (min (iLeft + 2 * width) n)).length =
      min (iLeft + 2 * width) n - j' := stretch_length (by omega)
  rw [hfirst, stretch_second ha] at hmerge
  refine ⟨_, t₃, ?_, ht₃, ?_, ?_, hmerge⟩
  · exact (checkInt_yields (by omega)).bind ((checkInt_yields hint).bind
      (hheads.bind (hleftRest.bind (hrightRest.bind (Yields.pure t₃)))))
  · rw [helems₃, helems₂, helems₁, overwrite_overwrite (by omega), ← hleftLen, add_assoc,
      ← length_append, overwrite_overwrite (by rw [length_append]; omega)]
  · rw [length_append, length_append, hleftLen, hrightLen]
    omega

theorem mergePass_yields {e : ℕ} (hint : n + 2 * 2 ^ e ≤ intMax) (iLeft : ℕ) {t : SortArrays}
    (ht : t.HasCount n) :
    ∃ t', Yields (mergePass interp pCtx n e iLeft a t) t' ∧ t'.HasCount n ∧
      t'.elems.take iLeft = t.elems.take iLeft ∧
      MergePass (InOrder sign) (2 ^ e) (a.elems.drop iLeft) (t'.elems.drop iLeft) := by
  fun_induction mergePass interp pCtx n e iLeft a t with
  | case1 iLeft t hleft ih =>
    obtain ⟨zs, t₁, hrun, ht₁, helems₁, hcount, hmerge⟩ :=
      mergeRunsAt_yields h hcmp ha haS (show iLeft + 2 * 2 ^ e ≤ intMax by omega) hleft ht
    obtain ⟨t', hrest, ht', hprefix, hpass⟩ := ih t₁ ht₁
    have hwritten : t'.elems.take (iLeft + zs.length) = t.elems.take iLeft ++ zs := by
      have hlen := ht.elems_length
      have hle : iLeft + zs.length ≤ iLeft + 2 * 2 ^ e := by omega
      have hcut := congrArg (List.take (iLeft + zs.length)) hprefix
      rw [take_take, take_take, min_eq_left hle] at hcut
      rw [hcut, helems₁, take_overwrite (by omega)]
    have hfront : (t.elems.take iLeft).length = iLeft := by
      rw [length_take, ht.elems_length, min_eq_left (le_of_lt hleft)]
    have hbehind : t'.elems.drop (iLeft + zs.length) = t'.elems.drop (iLeft + 2 * 2 ^ e) := by
      by_cases hfull : iLeft + 2 * 2 ^ e ≤ n
      · rw [hcount, min_eq_left hfull]
      · rw [drop_eq_nil_of_le (by rw [ht'.elems_length]; omega),
          drop_eq_nil_of_le (by rw [ht'.elems_length]; omega)]
    have hsplit : t'.elems = t.elems.take iLeft ++ (zs ++ t'.elems.drop (iLeft + 2 * 2 ^ e)) := by
      rw [← hbehind, ← append_assoc, ← hwritten, take_append_drop]
    refine ⟨t', hrun.bind hrest, ht', ?_, ?_⟩
    · rw [hsplit, take_left' hfront]
    · have hdrop : t'.elems.drop iLeft = zs ++ t'.elems.drop (iLeft + 2 * 2 ^ e) := by
        conv_lhs => rw [hsplit, drop_left' hfront]
      rw [hdrop]
      rw [← drop_drop] at hpass
      exact MergePass.runs hmerge hpass
  | case2 iLeft t hleft =>
    refine ⟨t, Yields.pure t, ht, rfl, ?_⟩
    rw [drop_eq_nil_of_le (by rw [ha.elems_length]; omega),
      drop_eq_nil_of_le (by rw [ht.elems_length]; omega)]
    exact MergePass.nil

theorem sortPasses_yields {Q : ℕ → List (Bytes × ℕ) → Prop} (hcount : n ≤ maxListElements)
    (hQ : ∀ e, ∀ xs ys : List (Bytes × ℕ), MergePass (InOrder sign) (2 ^ e) xs ys → Q e xs →
      Q (e + 1) ys)
    {e : ℕ} {t : SortArrays} (ht : t.HasCount n) (hq : Q e a.elems) :
    ∃ out, Yields (sortPasses interp pCtx n e a t) out ∧ out.HasCount n ∧
      ∃ e', n ≤ 2 ^ e' ∧ Q e' out.elems := by
  fun_induction sortPasses interp pCtx n e a t with
  | case1 e a t hwidth ih =>
    have hfits : n + 2 * 2 ^ e ≤ intMax := by
      have hmax : intMax = 2147483647 := by decide
      have hceiling : maxListElements = 1000000 := rfl
      omega
    obtain ⟨t', hpass, ht', -, hmerged⟩ := mergePass_yields h hcmp ha haS hfits 0 ht
    obtain ⟨a', hback, ha', helems⟩ := copyBack_yields h ha 0 ht'
    rw [drop_zero, drop_zero] at hmerged
    have hall := stretch_all t'.elems
    rw [ht'.elems_length] at hall
    have hcopied : a'.elems = t'.elems := by
      rw [helems, hall, overwrite_all (ha.elems_length.trans ht'.elems_length.symm)]
    have haS' : ∀ x ∈ a'.elems, x ∈ S := by
      intro x hx
      rw [hcopied] at hx
      exact haS x (hmerged.perm.mem_iff.mp hx)
    obtain ⟨out, hrest, hout⟩ := ih t' a' ha' haS' ht' (hcopied ▸ hQ e _ _ hmerged hq)
    refine ⟨out, hpass.bind (hback.bind ((checkInt_yields ?_).bind hrest)), hout⟩
    rw [pow_succ']
    omega
  | case2 e a t hwidth => exact ⟨a, Yields.pure a, ha, e, not_lt.mp hwidth, hq⟩

end Merging

/-- Both scratch arrays are granted, with room for `n` entries each. -/
structure Scratch.Granted (scratch : Scratch) (n : ℕ) : Prop where
  az : scratch.azGranted = true
  an : scratch.anGranted = true
  room : scratch.old.HasCount n

theorem safeAllocMul_of_count (hpos : 0 < n) (hcount : n ≤ maxListElements) :
    safeAllocMul true n 8 = true := by
  have hceiling : maxListElements = 1000000 := rfl
  have hsize : sizeMax / 8 = 2305843009213693951 := by decide
  have hmax : mxAlloc = 268435456 := by decide
  have hmul : safeMulSize n 8 = some (n * 8) := by
    rw [safeMulSize, if_neg (by omega)]
  rw [safeAllocMul, hmul]
  simp only [safeAlloc]
  rw [if_neg (by omega)]

/-! ## Modes whose comparison is a total preorder -/

def textBytes (x : Bytes × ℕ) : Bytes := x.1.take (Strings.lenOf x.2)

def Readable (x : Bytes × ℕ) : Prop := Strings.lenOf x.2 ≤ x.1.length

instance (x : Bytes × ℕ) : Decidable (Readable x) := Nat.decLe _ _

def directed (bDecreasing : Bool) (cmp : ℤ) : ℤ :=
  if bDecreasing then signOf (0 < cmp) (cmp < 0) else cmp

theorem signOf_nonpos_iff {less greater : Prop} [Decidable less] [Decidable greater] :
    signOf less greater ≤ 0 ↔ (greater → less) := by
  unfold signOf
  by_cases hg : greater <;> by_cases hl : less <;> simp [hg, hl]

theorem directed_nonpos_iff {bDecreasing : Bool} {cmp : ℤ} :
    directed bDecreasing cmp ≤ 0 ↔ if bDecreasing then 0 ≤ cmp else cmp ≤ 0 := by
  unfold directed
  cases bDecreasing with
  | false => rfl
  | true =>
    simp only [if_true]
    rw [signOf_nonpos_iff]
    omega

theorem lsortCompare_yields {pCtx : SortCtx} (hindex : pCtx.iIndex < 0) {x y : Bytes × ℕ}
    (hx : Readable x) (hy : Readable y) {cmp : ℤ}
    (hcmp : Yields (compareFields interp pCtx (textBytes x) (textBytes y)) cmp) :
    Yields (lsortCompare interp pCtx x y) (directed pCtx.bDecreasing cmp) := by
  have hfield (e : Bytes × ℕ) (he : Readable e) :
      Yields (lsortField interp pCtx e) (textBytes e) := by
    have htext : (textOf e.1 e.2 : SortRun σ Bytes) = pure (textBytes e) := if_pos he
    unfold lsortField
    rw [htext]
    refine (Yields.pure _).bind ?_
    rw [if_pos hindex]
    exact Yields.pure _
  exact (hfield x hx).bind ((hfield y hy).bind (hcmp.bind (Yields.pure _)))

section Key

variable {κ : Type} [LinearOrder κ]

def keySign (key : Bytes × ℕ → κ) (x y : Bytes × ℕ) : ℤ :=
  signOf (key x < key y) (key y < key x)

theorem keySign_nonpos_iff (key : Bytes × ℕ → κ) {x y : Bytes × ℕ} :
    keySign key x y ≤ 0 ↔ key x ≤ key y := by
  rw [keySign, signOf_nonpos_iff]
  constructor
  · intro h
    by_contra hlt
    exact hlt (h (lt_of_not_ge hlt)).le
  · intro hle hlt
    exact absurd hle (not_le_of_gt hlt)

theorem keySign_nonneg_iff (key : Bytes × ℕ → κ) {x y : Bytes × ℕ} :
    0 ≤ keySign key x y ↔ key y ≤ key x := by
  have hneg : keySign key x y = -keySign key y x := by
    unfold keySign signOf
    omega
  rw [← keySign_nonpos_iff key, hneg]
  omega

theorem totalPreorderOn_key (key : Bytes × ℕ → κ) (bDecreasing : Bool) (S : Set (Bytes × ℕ)) :
    TotalPreorderOn (InOrder fun x y => directed bDecreasing (keySign key x y)) S := by
  have horder (x y : Bytes × ℕ) :
      InOrder (fun x y => directed bDecreasing (keySign key x y)) x y ↔
        if bDecreasing then key y ≤ key x else key x ≤ key y := by
    rw [InOrder, directed_nonpos_iff, keySign_nonpos_iff, keySign_nonneg_iff]
  constructor
  · intro x _ y _
    rw [horder x y, horder y x]
    split_ifs
    · exact le_total _ _
    · exact le_total _ _
  · intro x _ y _ z _ hxy hyz
    rw [horder x y] at hxy
    rw [horder y z] at hyz
    rw [horder x z]
    split_ifs at hxy hyz ⊢
    · exact hyz.trans hxy
    · exact hxy.trans hyz

end Key

def intKey (x : Bytes × ℕ) : ℤ := ((parseInt (textBytes x)).toOption).getD 0

theorem asciiCompare_cons (c d : Byte) (x y : Bytes) :
    asciiCompare (c :: x) (d :: y) =
      if c = d then asciiCompare x y else if c < d then -1 else 1 := by
  unfold asciiCompare
  simp only [length_cons, Nat.add_min_add_right, take_succ_cons, Strings.memcmp]
  by_cases hcd : c = d
  · simp [hcd, signOf]
  · by_cases hlt : c < d
    · simp [hcd, hlt]
    · simp [hcd, hlt]

theorem asciiCompare_eq (x y : Bytes) :
    asciiCompare x y =
      signOf (x.map UInt8.toNat < y.map UInt8.toNat) (y.map UInt8.toNat < x.map UInt8.toNat) := by
  induction x generalizing y with
  | nil =>
    cases y with
    | nil => rfl
    | cons d y => simp [asciiCompare, Strings.memcmp, signOf]
  | cons c x ih =>
    cases y with
    | nil => simp [asciiCompare, Strings.memcmp, signOf]
    | cons d y =>
      rw [asciiCompare_cons, ih]
      simp only [signOf, map_cons, cons_lt_cons_iff, ← UInt8.lt_iff_toNat_lt, UInt8.toNat_inj]
      by_cases hcd : c = d
      · subst hcd
        simp
      · have hdc : ¬d = c := fun h => hcd h.symm
        by_cases hlt : c < d
        · have hge : ¬d < c := UInt8.lt_asymm hlt
          simp [hcd, hdc, hlt, hge]
        · have hgt : d < c := (UInt8.lt_or_lt_of_ne hcd).resolve_left hlt
          simp [hcd, hdc, hlt, hgt]

section Modes

variable {pCtx : SortCtx} {S : Set (Bytes × ℕ)} (hindex : pCtx.iIndex < 0)
  (hread : ∀ x ∈ S, Readable x)

include hindex hread

theorem comparesBy_integer (hmode : pCtx.eMode = .integer)
    (hint : ∀ x ∈ S, (parseInt (textBytes x)).isOk) :
    ComparesBy interp pCtx S fun x y => directed pCtx.bDecreasing (keySign intKey x y) := by
  intro x hx y hy
  have hvalue (z : Bytes × ℕ) (hz : z ∈ S) : ∃ v, parseInt (textBytes z) = .ok v := by
    have hok := hint z hz
    rcases hparse : parseInt (textBytes z) with e | v
    · rw [hparse] at hok
      cases hok
    · exact ⟨v, rfl⟩
  obtain ⟨vx, hvx⟩ := hvalue x hx
  obtain ⟨vy, hvy⟩ := hvalue y hy
  apply lsortCompare_yields hindex (hread x hx) (hread y hy)
  have hkeys : keySign intKey x y = signOf (vx < vy) (vy < vx) := by
    unfold keySign intKey
    rw [hvx, hvy]
    rfl
  unfold compareFields
  rw [hmode, hvx, hvy, hkeys]
  exact (Yields.pure _).bind ((Yields.pure _).bind (Yields.pure _))

end Modes

theorem lsortMergeSort_passes (h : Uninterrupted interp) {pCtx : SortCtx} {scratch : Scratch}
    {a : SortArrays} (ha : a.HasCount n) (hcount : n ≤ maxListElements)
    (hscratch : scratch.Granted n) {sign : Bytes × ℕ → Bytes × ℕ → ℤ}
    (hcmp : ComparesBy interp pCtx {x | x ∈ a.elems} sign) {Q : ℕ → List (Bytes × ℕ) → Prop}
    (hQ : ∀ e, ∀ xs ys : List (Bytes × ℕ), MergePass (InOrder sign) (2 ^ e) xs ys → Q e xs →
      Q (e + 1) ys) (hq : Q 0 a.elems) :
    ∃ out, Yields (lsortMergeSort interp pCtx scratch a n) out ∧ out.HasCount n ∧
      ∃ e, n ≤ 2 ^ e ∧ Q e out.elems := by
  unfold lsortMergeSort
  by_cases hsmall : n < 2
  · rw [if_pos hsmall]
    exact ⟨a, Yields.pure a, ha, 0, le_of_lt_succ hsmall, hq⟩
  · have halloc := safeAllocMul_of_count (by omega) hcount
    rw [if_neg hsmall, hscratch.az, hscratch.an, halloc]
    exact sortPasses_yields h hcmp ha (fun x hx => hx) hcount hQ hscratch.room hq

theorem lsortMergeSort_yields (h : Uninterrupted interp) {pCtx : SortCtx} {scratch : Scratch}
    {a : SortArrays} (ha : a.HasCount n) (hcount : n ≤ maxListElements)
    (hscratch : scratch.Granted n) {sign : Bytes × ℕ → Bytes × ℕ → ℤ}
    (hcmp : ComparesBy interp pCtx {x | x ∈ a.elems} sign)
    (hS : TotalPreorderOn (InOrder sign) {x | x ∈ a.elems}) :
    ∃ out, Yields (lsortMergeSort interp pCtx scratch a n) out ∧ out.HasCount n ∧
      StableSort (InOrder sign) {x | x ∈ a.elems} a.elems out.elems := by
  have hdouble (e : ℕ) (xs ys : List (Bytes × ℕ)) (hpass : MergePass (InOrder sign) (2 ^ e) xs ys)
      (hruns : StableRuns (InOrder sign) {x | x ∈ a.elems} (2 ^ e) a.elems xs) :
      StableRuns (InOrder sign) {x | x ∈ a.elems} (2 ^ (e + 1)) a.elems ys := by
    rw [pow_succ']
    exact hpass.stableRuns hS (fun x hx => hx) hruns
  obtain ⟨out, hout, hlen, e, hwidth, hruns⟩ :=
    lsortMergeSort_passes h ha hcount hscratch hcmp hdouble (stableRuns_one a.elems)
  refine ⟨out, hout, hlen, hruns.stableSort ?_⟩
  rw [hruns.1, hlen.elems_length]
  exact hwidth

/-- A sort that is not interrupted, with a comparison that is a total preorder on the
elements, sorts them stably, each with its length word. -/
theorem lsortMergeSort_stable (interp : SortInterp σ) (h : Uninterrupted interp)
    (pCtx : SortCtx) (scratch : Scratch) (a : SortArrays) (n : ℕ) (ha : a.HasCount n)
    (hcount : n ≤ maxListElements) (hscratch : scratch.Granted n) (sign : Bytes × ℕ → Bytes × ℕ → ℤ)
    (hcmp : ComparesBy interp pCtx {x | x ∈ a.elems} sign)
    (hS : TotalPreorderOn (InOrder sign) {x | x ∈ a.elems}) :
    ∃ out, Yields (lsortMergeSort interp pCtx scratch a n) out ∧ out.HasCount n ∧
      StableSort (InOrder sign) {x | x ∈ a.elems} a.elems out.elems := by
  exact lsortMergeSort_yields h ha hcount hscratch hcmp hS

def quietInterp : SortInterp Unit where
  ready _ := .ok ()
  eval _ _ := .error .silent
  eagleSplitList _ := .ok []
  doubles _ := none
  bigint := false
  nResultLimit := 0

def integerSort : SortCtx := ⟨.integer, false, .plain [], -1⟩

/-- The elements `2`, `+1`, `02` and `1`; the third one is tainted. -/
def mixedNumbers : SortArrays :=
  ⟨[ascii "2", ascii "+1", ascii "02", ascii "1"], [1, 2, 2 + 2 ^ 28, 1]⟩

theorem lsortMergeSort_stable_numbers :
    ∃ out, Yields (lsortMergeSort quietInterp integerSort ⟨true, true, mixedNumbers⟩
        mixedNumbers 4) out ∧ out.HasCount 4 ∧
      StableSort (InOrder fun x y => directed false (keySign intKey x y))
        {x | x ∈ mixedNumbers.elems} mixedNumbers.elems out.elems :=
  lsortMergeSort_stable quietInterp (fun s => ⟨s, rfl⟩) integerSort ⟨true, true, mixedNumbers⟩
    mixedNumbers 4 ⟨rfl, rfl⟩ (by decide) ⟨rfl, rfl, rfl, rfl⟩ _
    (comparesBy_integer (by decide) (by decide : ∀ x ∈ mixedNumbers.elems, Readable x) rfl
      (by decide : ∀ x ∈ mixedNumbers.elems, (parseInt (textBytes x)).isOk))
    (totalPreorderOn_key intKey false _)

end Sorting

end Th8
