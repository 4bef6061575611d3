import Mathlib.Data.List.DropRight
import Th8.Lists.Spilornis

/-!
# The elements of a text

`Eagle_SplitList` takes the elements of a text one after the other.  Each ends where the text
ends or white space begins, so the runs of white space are enough for the estimate of their
number.
-/

namespace Th8

open Support List Nat

variable {inQuotes : Bool} {skip openBraces : ℕ} {c : Byte} {u z : Bytes}

/-- The elements of a text, which `EagleFindElement` finds one after the other. -/
def Splits : Bytes → List Bytes → Prop
  | z, [] => eagleFindElement z = .ok none
  | z, e :: es => ∃ f, eagleFindElement z = .ok (some f) ∧ f.value = e ∧ Splits f.after es

variable {es : List Bytes}

theorem splits_dropWhile : Splits (z.dropWhile isSpace) es ↔ Splits z es := by
  have hfind : eagleFindElement (z.dropWhile isSpace) = eagleFindElement z := by
    unfold eagleFindElement
    rw [dropWhile_idempotent]
  cases es with
  | nil => rw [Splits, Splits, hfind]
  | cons e es => rw [Splits, Splits, hfind]

theorem eagleFindElement_eq_none : eagleFindElement z = .ok none ↔ z.dropWhile isSpace = [] := by
  unfold eagleFindElement
  rcases z.dropWhile isSpace with _ | ⟨c, p⟩
  · simp
  · simp only [reduceCtorEq, iff_false]
    intro h
    generalize (if c = chOpenBrace then findElementFrom 0 1 false p
      else if c = chQuote then findElementFrom 0 0 true p
      else findElementFrom 0 0 false (c :: p)) = x at h
    cases x <;> cases h

theorem splits_of_spaces (h : u.dropWhile isSpace = []) : Splits u es ↔ es = [] := by
  have hnone := eagleFindElement_eq_none.mpr h
  cases es with
  | nil => simp [Splits, hnone]
  | cons e es => simp [Splits, hnone]

theorem splits_spaces_append (h : u.dropWhile isSpace = []) : Splits (u ++ z) es ↔ Splits z es := by
  rw [← splits_dropWhile, dropWhile_append, h, isEmpty_nil, if_pos rfl, splits_dropWhile]

theorem splits_iff_of_find {w : Bytes}
    (hfind : eagleFindElement z = (findElementFrom 0 openBraces inQuotes w).map
      fun f => some { f with after := f.after.dropWhile isSpace }) :
    Splits z es ↔ ∃ f, findElementFrom 0 openBraces inQuotes w = .ok f ∧
      ∃ es', es = f.value :: es' ∧ Splits f.after es' := by
  cases hx : findElementFrom 0 openBraces inQuotes w with
  | error e => cases es <;> simp [Splits, hfind, hx, Except.map]
  | ok f =>
    have hvalue : FoundElement.value { f with after := f.after.dropWhile isSpace } = f.value := rfl
    cases es with
    | nil => simp [Splits, hfind, hx, Except.map]
    | cons e es => simp [Splits, hfind, hx, Except.map, hvalue, splits_dropWhile, eq_comm]

variable {f : FoundElement}

theorem exists_of_map_cons {x : Except String FoundElement} (h : x.map (·.cons c) = .ok f) :
    ∃ g, x = .ok g ∧ f = g.cons c := by
  rcases x with e | g
  · cases h
  · exact ⟨g, rfl, (Except.ok.inj h).symm⟩

theorem findElementFrom_ends (h : findElementFrom skip openBraces inQuotes z = .ok f) :
    ∃ e, z = e ++ f.after ∧ f.element <+: e ∧ atElementEnd f.after = true := by
  fun_induction findElementFrom skip openBraces inQuotes z generalizing f with
  | case1 | case2 | case8 | case14 => cases h
  | case3 =>
    cases h
    exact ⟨[], rfl, nil_prefix, rfl⟩
  | case11 _ _ _ _ _ _ _ hspace =>
    cases h
    exact ⟨[], rfl, nil_prefix, hspace⟩
  | case7 _ _ hend | case13 _ _ hend =>
    cases h
    exact ⟨[_], rfl, nil_prefix, hend⟩
  | case4 | case5 | case6 | case9 | case10 | case12 | case15 | case16 =>
    rename_i ih
    obtain ⟨g, hg, rfl⟩ := exists_of_map_cons h
    obtain ⟨e, hz, helem, hend⟩ := ih hg
    exact ⟨_ :: e, congrArg _ hz, (prefix_cons_inj _).mpr helem, hend⟩

/-! ## The estimate of the size -/

theorem spaceRuns_append {s : Byte} (hs : isSpace s = true) (z rest : Bytes) :
    spaceRuns true rest + 1 ≤ spaceRuns false (z ++ s :: rest) ∧
      spaceRuns true rest ≤ spaceRuns true (z ++ s :: rest) := by
  induction z with
  | nil => simp [spaceRuns, hs]
  | cons c z ih =>
    obtain ⟨hout, hin⟩ := ih
    rw [cons_append, spaceRuns, spaceRuns]
    rcases isSpace c
    · exact ⟨hout, (le_succ _).trans hout⟩
    · exact ⟨succ_le_succ hin, hin⟩

theorem spaceRuns_dropWhile (z : Bytes) :
    spaceRuns true (z.dropWhile isSpace) = spaceRuns true z := by
  induction z with
  | nil => rfl
  | cons c z ih =>
    by_cases hc : isSpace c = true
    · rw [dropWhile_cons_of_pos hc, ih, spaceRuns, hc]
    · rw [dropWhile_cons_of_neg hc]

theorem spaceRuns_le (z : Bytes) : spaceRuns true z ≤ spaceRuns false z := by
  rcases z with _ | ⟨c, z⟩
  · exact le_refl _
  · rw [spaceRuns, spaceRuns]
    cases isSpace c
    · exact le_refl _
    · exact le_succ _

theorem spaceRuns_after (h : eagleFindElement z = .ok (some f)) :
    f.after = [] ∨ spaceRuns true f.after + 1 ≤ spaceRuns true z := by
  unfold eagleFindElement at h
  rcases hz : z.dropWhile isSpace with _ | ⟨c, p⟩
  · simp [hz] at h
  have hc : isSpace c = false := by
    have hnot := head?_dropWhile_not isSpace z
    rw [hz] at hnot
    exact hnot
  have hruns : spaceRuns true z = spaceRuns false p := by
    rw [← spaceRuns_dropWhile, hz, spaceRuns, hc]
  have hread {x : Except String FoundElement} {p' : Bytes}
      (hp : spaceRuns false p' = spaceRuns false p)
      (hx : ∀ g, x = .ok g → ∃ e, p' = e ++ g.after ∧ g.element <+: e ∧ atElementEnd g.after = true)
      (h : (x.map fun f => some { f with after := f.after.dropWhile isSpace }) = .ok (some f)) :
      f.after = [] ∨ spaceRuns true f.after + 1 ≤ spaceRuns true z := by
    rcases x with zError | g
    · cases h
    obtain ⟨e, hp', -, hend⟩ := hx g rfl
    obtain rfl := Option.some.inj (Except.ok.inj h)
    rcases hafter : g.after with _ | ⟨s, q⟩
    · exact .inl rfl
    · rw [hafter] at hend hp'
      have hs : isSpace s = true := hend
      have hmore := (spaceRuns_append hs e q).1
      rw [← hp', hp, ← hruns] at hmore
      refine .inr ?_
      rw [spaceRuns_dropWhile, spaceRuns, hs]
      exact hmore
  simp only [hz] at h
  split_ifs at h
  · exact hread rfl (fun g => findElementFrom_ends) h
  · exact hread rfl (fun g => findElementFrom_ends) h
  · exact hread (by rw [spaceRuns, hc]; rfl) (fun g => findElementFrom_ends) h

theorem Splits.length_le (h : Splits z es) : es.length ≤ spaceRuns true z + 1 := by
  induction es generalizing z with
  | nil => exact zero_le _
  | cons e es ih =>
    obtain ⟨f, hf, -, hrest⟩ := h
    rcases spaceRuns_after hf with hnil | hruns
    · rw [hnil] at hrest
      obtain rfl := (splits_of_spaces rfl).mp hrest
      exact le_add_left _ _
    · exact succ_le_succ ((ih hrest).trans hruns)

theorem Splits.unique {es' : List Bytes} (h : Splits z es) (h' : Splits z es') : es = es' := by
  induction es generalizing z es' with
  | nil =>
    cases es' with
    | nil => rfl
    | cons e' es' =>
      obtain ⟨f, hf, -⟩ := h'
      rw [Splits, hf] at h
      cases h
  | cons e es ih =>
    obtain ⟨f, hf, rfl, hrest⟩ := h
    cases es' with
    | nil =>
      rw [Splits, hf] at h'
      cases h'
    | cons e' es' =>
      obtain ⟨g, hg, rfl, hrest'⟩ := h'
      obtain rfl := Option.some.inj (Except.ok.inj (hf.symm.trans hg))
      rw [ih hrest hrest']

theorem run_splitScanner_eq (size i : ℕ) : (splitScanner size).run (i, z) =
    match eagleFindElement z with
    | .error zError => ([], some zError)
    | .ok none => ([], none)
    | .ok (some f) =>
      if size ≤ i then ([], some "wrong estimated list size")
      else (f.value :: ((splitScanner size).run (i + 1, f.after)).1,
        ((splitScanner size).run (i + 1, f.after)).2) := by
  by_cases hz : z = []
  · subst hz
    exact Scanner.run_of_stop _ rfl
  · rcases hfind : eagleFindElement z with zError | _ | f
    · exact Scanner.run_of_stop _ (by simp [splitScanner, hz, hfind])
    · exact Scanner.run_of_stop _ (by simp [splitScanner, hz, hfind])
    · by_cases hsize : size ≤ i
      · have hstep : (splitScanner size).step (i, z) =
            ([], .inr (some "wrong estimated list size")) := by
          simp [splitScanner, hz, hfind, hsize]
        simp [Scanner.run_of_stop _ hstep, hsize]
      · have hstep : (splitScanner size).step (i, z) = ([f.value], .inl (i + 1, f.after)) := by
          simp [splitScanner, hz, hfind, hsize]
        simp [Scanner.run_of_next _ hstep, hsize]

theorem run_splitScanner_iff {size i : ℕ} : (splitScanner size).run (i, z) = (es, none) ↔
    Splits z es ∧ (es = [] ∨ i + es.length ≤ size) := by
  induction es generalizing z i with
  | nil =>
    rw [run_splitScanner_eq, Splits]
    rcases eagleFindElement z with zError | _ | f
    · simp
    · simp
    · simp only [Except.ok.injEq, reduceCtorEq, false_and, iff_false]
      split_ifs <;> simp
  | cons e es ih =>
    rw [run_splitScanner_eq, Splits]
    rcases eagleFindElement z with zError | _ | f
    · simp
    · simp
    · by_cases hsize : size ≤ i
      · have hno : ¬i + (es.length + 1) ≤ size := by omega
        simp [hsize, hno]
      · have hrest := ih (z := f.after) (i := i + 1)
        have hroom : es = [] ∨ i + 1 + es.length ≤ size ↔ i + (es.length + 1) ≤ size := by
          rcases es with _ | ⟨e', es⟩
          · simp only [length_nil, true_or, true_iff]
            omega
          · simp only [reduceCtorEq, false_or]
            omega
        rw [Prod.ext_iff, hroom] at hrest
        simp [hsize, hrest, and_assoc]

/-- The blocks that `Eagle_SplitList` asks for are granted. -/
structure SplitGranted (z : Bytes) : Prop where
  lengths : listSize z * 8 ≤ mxAlloc
  pointers : listSize z * 8 + (z.length + 1) ≤ mxAlloc

theorem eagleSplitList_eq_ok : eagleSplitList z = .ok es ↔ SplitGranted z ∧ Splits z es := by
  have hroom (h : Splits z es) : 0 + es.length ≤ listSize z := by
    have hruns := spaceRuns_le z
    have hcount := h.length_le
    unfold listSize
    omega
  have hmax : mxAlloc = 268435456 := rfl
  have hlib : libraryMaximumSize = 2147483647 := rfl
  have hsafe (n : ℕ) (hn : 0 < n) : safeAllocMul true n 1 = true ↔ n ≤ mxAlloc := by
    constructor
    · intro h
      by_contra hbig
      have hcases : safeAllocMul true n 1 = false := by
        unfold safeAllocMul safeMulSize
        split_ifs
        · rfl
        · simp [safeAlloc, not_le.mp hbig]
      rw [hcases] at h
      cases h
    · exact fun h => safeAllocMul_of_le hn Nat.one_pos (by rwa [Nat.mul_one])
  have hsize : 2 ≤ listSize z := le_add_right _ _
  have hlengths := hsafe (listSize z * 8) (by omega)
  have hpointers := hsafe (listSize z * 8 + (z.length + 1)) (by omega)
  have hrun : (splitScanner (listSize z)).run (0, z) = (es, none) ↔ Splits z es := by
    rw [run_splitScanner_iff]
    exact ⟨And.left, fun h => ⟨h, .inr (hroom h)⟩⟩
  unfold eagleSplitList
  simp only [Bool.not_eq_true', ← Bool.not_eq_true, hlengths, hpointers]
  by_cases hg : SplitGranted z
  · obtain ⟨hl, hp⟩ := id hg
    rw [if_neg (by omega), if_neg (not_not.mpr hl), if_neg (by omega), if_neg (not_not.mpr hp),
      ← hrun, and_iff_right hg]
    rcases (splitScanner (listSize z)).run (0, z) with ⟨elements, _ | zError⟩
    · simp
    · simp
  · have hno : ¬listSize z * 8 + (z.length + 1) ≤ mxAlloc := fun h => hg ⟨by omega, h⟩
    simp only [hg, false_and, iff_false, hno, not_false_eq_true, if_true]
    split_ifs <;> simp

end Th8
