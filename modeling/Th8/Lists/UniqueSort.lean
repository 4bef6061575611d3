import Mathlib.Data.List.Destutter
import Th8.Lists.MergeSort

/-!
# `lsort -unique`

The loop that builds the sorted list leaves an element out when its text is that of the
element before it.  Two elements of one text can be apart in the sorted array: a stable sort
keeps what compares as equal in the order of the input, also where its text is another one.
-/

namespace Support

section Destutter

variable {α : Type} [DecidableEq α] {a x : α} {l : List α}

theorem mem_destutter'_ne : x ∈ l.destutter' (· ≠ ·) a ↔ x = a ∨ x ∈ l := by
  induction l generalizing a with
  | nil => simp
  | cons b l ih =>
    by_cases hab : a ≠ b
    · rw [List.destutter'_cons_pos _ hab, List.mem_cons, ih, List.mem_cons]
    · rw [List.destutter'_cons_neg _ hab, ih, List.mem_cons, not_not.mp hab]
      tauto

theorem nodup_destutter'_ne :
    (l.destutter' (· ≠ ·) a).Nodup ↔ ∀ x y, [x, y, x].Sublist (a :: l) → y = x := by
  induction l generalizing a with
  | nil =>
    refine iff_of_true (List.nodup_singleton a) fun x y h => ?_
    have := h.length_le
    simp at this
  | cons b l ih =>
    by_cases hab : a ≠ b
    · rw [List.destutter'_cons_pos _ hab, List.nodup_cons, ih, mem_destutter'_ne]
      constructor
      · rintro ⟨hnot, hrest⟩ x y h
        cases h with
        | cons _ h => exact hrest x y h
        | cons_cons _ h =>
          have hmem : a ∈ l := by
            cases h with
            | cons _ h => exact h.subset (by simp)
            | cons_cons _ h => exact h.subset (by simp)
          exact absurd (.inr hmem) hnot
      · intro h
        refine ⟨?_, fun x y hxy => h x y (hxy.cons a)⟩
        rintro (heq | hmem)
        · exact hab heq
        · exact hab (h a b (((List.singleton_sublist.mpr hmem).cons_cons b).cons_cons a)).symm
    · obtain rfl := not_not.mp hab
      rw [List.destutter'_cons_neg _ hab, ih]
      refine ⟨fun hrest x y h => ?_, fun h x y hxy => h x y (hxy.cons a)⟩
      cases h with
      | cons _ h => exact hrest x y h
      | cons_cons _ h =>
        cases h with
        | cons _ h => exact hrest _ _ (h.cons_cons _)
        | cons_cons _ h => rfl

theorem mem_destutter_ne : x ∈ l.destutter (· ≠ ·) ↔ x ∈ l := by
  cases l with
  | nil => rfl
  | cons a l => rw [List.destutter_cons', mem_destutter'_ne, List.mem_cons]

theorem nodup_destutter_ne : (l.destutter (· ≠ ·)).Nodup ↔ ∀ x y, [x, y, x].Sublist l → y = x := by
  cases l with
  | nil =>
    refine iff_of_true List.nodup_nil fun x y h => ?_
    cases h
  | cons a l => rw [List.destutter_cons', nodup_destutter'_ne]

end Destutter

end Support

namespace Th8

open Support

namespace Sorting

section Build

variable {σ : Type} (interp : SortInterp σ)

/-- The loop of `lsort_command` that builds the list from the sorted array, after `prev`. -/
def appendSorted (bUnique : Bool) (prev : Option (Bytes × ℕ)) :
    List (Bytes × ℕ) → TString → SortRun σ TString
  | [], zOut => pure zOut
  | e :: rest, zOut => do
    ready interp
    let z ← textOf e.1 e.2
    if bUnique ∧ prev.map textBytes = some z then appendSorted bUnique (some e) rest zOut
    else do
      let zOut ← sortLift (listAppend interp.nResultLimit zOut ⟨z, Strings.tagsOf e.2⟩)
      appendSorted bUnique (some e) rest zOut

/-- `lsort_command` with its options and the elements of the list. -/
def lsortElements (pCtx : SortCtx) (bUnique : Bool) (scratch : Scratch) (a : SortArrays)
    (nCount : ℕ) : SortRun σ TString := do
  let a ← lsortMergeSort interp pCtx scratch a nCount
  appendSorted interp bUnique none a.elems (.plain [])

end Build

/-- An element that is handed to `Th8_ListAppend`. -/
def elementOf (x : Bytes × ℕ) : TString := ⟨textBytes x, Strings.tagsOf x.2⟩

/-- The elements whose text is not that of the element before, the first of which comes after
an element with the text `prev`. -/
def withoutRepeats (prev : Option Bytes) : List (Bytes × ℕ) → List (Bytes × ℕ)
  | [] => []
  | e :: rest =>
    if prev = some (textBytes e) then withoutRepeats (some (textBytes e)) rest
    else e :: withoutRepeats (some (textBytes e)) rest

def Unmixed (sign : Bytes × ℕ → Bytes × ℕ → ℤ) (elems : List (Bytes × ℕ)) : Prop :=
  ∀ x y z, [x, y, z].Sublist elems → textBytes x = textBytes z →
    InOrder sign x y → InOrder sign y x → textBytes y = textBytes x

variable {σ : Type} {interp : SortInterp σ} {pCtx : SortCtx} {S : Set (Bytes × ℕ)}
  {sign : Bytes × ℕ → Bytes × ℕ → ℤ} {elems : List (Bytes × ℕ)}

theorem map_withoutRepeats_some (p : Bytes) :
    p :: (withoutRepeats (some p) elems).map textBytes =
      (elems.map textBytes).destutter' (· ≠ ·) p := by
  induction elems generalizing p with
  | nil => rfl
  | cons e rest ih =>
    rw [withoutRepeats, List.map_cons]
    by_cases hne : p ≠ textBytes e
    · rw [if_neg (by simpa using hne), List.destutter'_cons_pos _ hne, List.map_cons, ih]
    · obtain rfl := not_not.mp hne
      rw [if_pos rfl, List.destutter'_cons_neg _ hne, ih]

theorem map_withoutRepeats :
    (withoutRepeats none elems).map textBytes = (elems.map textBytes).destutter (· ≠ ·) := by
  cases elems with
  | nil => rfl
  | cons e rest => exact map_withoutRepeats_some (textBytes e)

theorem appendSorted_yields (h : Uninterrupted interp) (hread : ∀ x ∈ elems, Readable x)
    {prev : Option (Bytes × ℕ)} {zOut r : TString}
    (hlist : ((withoutRepeats (prev.map textBytes) elems).map elementOf).foldlM
      (listAppend interp.nResultLimit) zOut = .ok r) :
    Yields (appendSorted interp true prev elems zOut) r := by
  induction elems generalizing prev zOut with
  | nil =>
    cases hlist
    exact Yields.pure _
  | cons e rest ih =>
    obtain ⟨he, hrest⟩ := List.forall_mem_cons.mp hread
    have htext : (textOf e.1 e.2 : SortRun σ Bytes) = pure (textBytes e) := if_pos he
    rw [appendSorted, htext]
    refine h.ready.bind ((Yields.pure _).bind ?_)
    rw [withoutRepeats] at hlist
    by_cases heq : prev.map textBytes = some (textBytes e)
    · rw [if_pos heq] at hlist
      rw [if_pos ⟨rfl, heq⟩]
      exact ih hrest hlist
    · rw [if_neg heq, List.map_cons, List.foldlM_cons] at hlist
      obtain ⟨zOut', hone, hlist⟩ := bind_eq_ok.mp hlist
      rw [elementOf] at hone
      rw [if_neg fun h => heq h.2, hone]
      exact (Yields.pure _).bind (ih hrest hlist)

/-! ## What is left out -/

theorem lsortCompare_congr {x y z : Bytes × ℕ} (hx : Readable x) (hz : Readable z)
    (h : textBytes x = textBytes z) :
    lsortCompare interp pCtx y z = lsortCompare interp pCtx y x := by
  have htext : (textOf x.1 x.2 : SortRun σ Bytes) = textOf z.1 z.2 := by
    rw [show textOf x.1 x.2 = pure (textBytes x) from if_pos hx, h]
    exact (if_pos hz).symm
  unfold lsortCompare lsortField
  rw [htext]

theorem inOrder_of_textBytes_eq (hcmp : ComparesBy interp pCtx S sign)
    (hS : TotalPreorderOn (InOrder sign) S) (hread : ∀ x ∈ S, Readable x) (s : σ)
    {x z : Bytes × ℕ} (hx : x ∈ S) (hz : z ∈ S) (h : textBytes x = textBytes z) :
    InOrder sign x z := by
  obtain ⟨s₁, hxz⟩ := hcmp x hx z hz s
  obtain ⟨s₂, hxx⟩ := hcmp x hx x hx s
  rw [lsortCompare_congr (hread x hx) (hread z hz) h, hxx] at hxz
  have hsign : sign x x = sign x z := congrArg Prod.fst (Except.ok.inj hxz)
  have hrefl := hS.total x hx x hx
  rw [or_self, InOrder, hsign] at hrefl
  exact hrefl

theorem unmixed_iff_of_stableSort {xs ys : List (Bytes × ℕ)}
    (hS : TotalPreorderOn (InOrder sign) {x | x ∈ xs})
    (hsame : ∀ x ∈ xs, ∀ z ∈ xs, textBytes x = textBytes z → InOrder sign x z)
    (hsort : StableSort (InOrder sign) {x | x ∈ xs} xs ys) :
    (∀ p q, [p, q, p].Sublist (ys.map textBytes) → q = p) ↔ Unmixed sign xs := by
  have hties {x y z : Bytes × ℕ} {l : List (Bytes × ℕ)} (h : [x, y, z].Sublist l)
      (hx : InOrder sign x x) (hxy : InOrder sign x y ∧ InOrder sign y x)
      (hxz : InOrder sign x z ∧ InOrder sign z x) :
      [x, y, z].Sublist (tiedWith (InOrder sign) x l) := by
    have hfilter : tiedWith (InOrder sign) x [x, y, z] = [x, y, z] := by
      simp [tiedWith, hx, hxy, hxz]
    exact hfilter ▸ h.filter _
  constructor
  · intro h x y z hxyz heq hxy hyx
    have hx : x ∈ xs := hxyz.subset (by simp)
    have hz : z ∈ xs := hxyz.subset (by simp)
    have htied := hties hxyz (hsame x hx x hx rfl) ⟨hxy, hyx⟩
      ⟨hsame x hx z hz heq, hsame z hz x hx heq.symm⟩
    rw [← hsort.stable x hx] at htied
    have hmap := (htied.trans List.filter_sublist).map textBytes
    rw [List.map_cons, List.map_cons, List.map_singleton, ← heq] at hmap
    exact h _ _ hmap
  · intro h p q hpq
    obtain ⟨l, hl, hmap⟩ := List.sublist_map_iff.mp hpq
    obtain ⟨x, y, z, rfl⟩ := List.length_eq_three.mp (by simpa using congrArg List.length hmap.symm)
    obtain ⟨rfl, rfl, heq⟩ : p = textBytes x ∧ q = textBytes y ∧ p = textBytes z := by
      simpa using hmap
    have hmem (w : Bytes × ℕ) (hw : w ∈ [x, y, z]) : w ∈ xs := hsort.perm.subset (hl.subset hw)
    have hx := hmem x (by simp)
    have hy := hmem y (by simp)
    have hz := hmem z (by simp)
    have hpair := hsort.sorted.sublist hl
    simp only [List.pairwise_cons, List.mem_cons, forall_eq_or_imp] at hpair
    have hyx := hS.trans y hy z hz x hx hpair.2.1.1 (hsame z hz x hx heq.symm)
    have htied := hties hl (hsame x hx x hx rfl) ⟨hpair.1.1, hyx⟩
      ⟨hpair.1.2.1, hsame z hz x hx heq.symm⟩
    rw [hsort.stable x hx] at htied
    exact h x y z (htied.trans List.filter_sublist) heq hpair.1.1 hyx

/-- For a comparison that is a total preorder, the list holds the text of every element, and
no text twice exactly if the input is not mixed. -/
theorem lsortUnique_nodup_iff (interp : SortInterp σ) (s : σ) (h : Uninterrupted interp)
    (pCtx : SortCtx) (scratch : Scratch) (a : SortArrays) (n : ℕ) (ha : a.HasCount n)
    (hcount : n ≤ maxListElements) (hscratch : scratch.Granted n)
    (hread : ∀ x ∈ a.elems, Readable x) (sign : Bytes × ℕ → Bytes × ℕ → ℤ)
    (hcmp : ComparesBy interp pCtx {x | x ∈ a.elems} sign)
    (hS : TotalPreorderOn (InOrder sign) {x | x ∈ a.elems}) :
    ∃ kept : List (Bytes × ℕ),
      (∀ r, listText interp.nResultLimit (kept.map elementOf) = .ok r →
        Yields (lsortElements interp pCtx true scratch a n) r) ∧
      (∀ z, z ∈ kept.map textBytes ↔ z ∈ a.elems.map textBytes) ∧
      ((kept.map textBytes).Nodup ↔ Unmixed sign a.elems) := by
  obtain ⟨out, hout, -, hsort⟩ := lsortMergeSort_yields h ha hcount hscratch hcmp hS
  refine ⟨withoutRepeats none out.elems, fun r hr => hout.bind (appendSorted_yields h
    (fun x hx => hread x (hsort.perm.subset hx)) hr), fun z => ?_, ?_⟩
  · rw [map_withoutRepeats, mem_destutter_ne, (hsort.perm.map textBytes).mem_iff]
  · rw [map_withoutRepeats, nodup_destutter_ne]
    exact unmixed_iff_of_stableSort hS (fun x hx z hz heq =>
      inOrder_of_textBytes_eq hcmp hS hread s hx hz heq) hsort

/-- The elements `1`, `01` and `1`. -/
def mixedOnes : SortArrays := ⟨[ascii "1", ascii "01", ascii "1"], [1, 2, 1]⟩

theorem comparesBy_mixedOnes :
    ComparesBy quietInterp integerSort {x | x ∈ mixedOnes.elems}
      fun x y => directed false (keySign intKey x y) :=
  comparesBy_integer (by decide) (by decide : ∀ x ∈ mixedOnes.elems, Readable x) rfl
    (by decide : ∀ x ∈ mixedOnes.elems, (parseInt (textBytes x)).isOk)

theorem lsortUnique_nodup_iff_ones :
    ∃ kept : List (Bytes × ℕ),
      (∀ r, listText 0 (kept.map elementOf) = .ok r →
        Yields (lsortElements quietInterp integerSort true ⟨true, true, mixedOnes⟩ mixedOnes 3) r) ∧
      (∀ z, z ∈ kept.map textBytes ↔ z ∈ mixedOnes.elems.map textBytes) ∧
      ((kept.map textBytes).Nodup ↔
        Unmixed (fun x y => directed false (keySign intKey x y)) mixedOnes.elems) :=
  lsortUnique_nodup_iff quietInterp () (fun s => ⟨s, rfl⟩) integerSort
    ⟨true, true, mixedOnes⟩ mixedOnes 3 ⟨rfl, rfl⟩ (by decide) ⟨rfl, rfl, rfl, rfl⟩ (by decide) _
    comparesBy_mixedOnes (totalPreorderOn_key intKey false _)

/-- `lsort -unique -integer {1 01 1}` returns `1` twice. -/
theorem lsortUnique_repeats :
    Yields (lsortElements quietInterp integerSort true ⟨true, true, mixedOnes⟩ mixedOnes 3)
      (.plain (ascii "1 01 1")) := by
  obtain ⟨out, hout, -, hsort⟩ := lsortMergeSort_yields (fun s => ⟨s, rfl⟩) ⟨rfl, rfl⟩
    (by decide) (show Scratch.Granted ⟨true, true, mixedOnes⟩ 3 from ⟨rfl, rfl, rfl, rfl⟩)
    comparesBy_mixedOnes (totalPreorderOn_key intKey false _)
  have htied (l : List (Bytes × ℕ)) (hl : ∀ x ∈ l, x ∈ mixedOnes.elems) :
      tiedWith (InOrder fun x y => directed false (keySign intKey x y)) (ascii "1", 1) l = l := by
    refine List.filter_eq_self.mpr fun x hx => ?_
    have hall : ∀ x ∈ mixedOnes.elems,
        directed false (keySign intKey (ascii "1", 1) x) ≤ 0 ∧
          directed false (keySign intKey x (ascii "1", 1)) ≤ 0 := by
      decide
    exact decide_eq_true (hall x (hl x hx))
  have helems : out.elems = mixedOnes.elems := by
    rw [← htied out.elems fun x hx => hsort.perm.subset hx,
      hsort.stable _ (by decide : (ascii "1", 1) ∈ mixedOnes.elems), htied _ fun x hx => hx]
  refine hout.bind (appendSorted_yields (fun s => ⟨s, rfl⟩) ?_ ?_)
  · rw [helems]
    decide
  · rw [helems]
    decide

end Sorting

end Th8
