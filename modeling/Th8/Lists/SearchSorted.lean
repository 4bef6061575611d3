import Th8.Lists.DictOrder
import Th8.Lists.RoundTrip
import Th8.Lists.UniqueSort

/-!
# `lsearch -sorted`

The binary search has comparisons of its own.  In the dictionary mode it reads a run of digits
as an `int`, where `th8DictCompare` compares the digits themselves.
-/

namespace Th8

open Support List

namespace Sorting

/-- The comparisons that `lsearch` knows. -/
inductive SearchType where
  | ascii
  | integer
  | dictionary
deriving DecidableEq

def SearchType.sortMode : SearchType → SortMode
  | ascii => .ascii
  | integer => .integer
  | dictionary => .dictionary

/-- The value of a run of digits, added up in an `int`. -/
def runInt (run : Bytes) : Except SortStop ℕ :=
  run.foldlM (fun num c =>
    if num * 10 + (c.toNat - 0x30) ≤ intMax then .ok (num * 10 + (c.toNat - 0x30))
    else .error .overflow) 0

def searchDictLoop (nA nPat : ℕ) : Bytes → Bytes → Except SortStop ℤ
  | ca :: restA, cb :: restB =>
    if isDecimal ca ∧ isDecimal cb then do
      let numA ← runInt (ca :: restA.takeWhile isDecimal)
      let numB ← runInt (cb :: restB.takeWhile isDecimal)
      let cmp := signOf (numA < numB) (numB < numA)
      if cmp ≠ 0 then return cmp
      else searchDictLoop nA nPat (restA.dropWhile isDecimal) (restB.dropWhile isDecimal)
    else
      let cmp := signOf (foldLetter ca < foldLetter cb) (foldLetter cb < foldLetter ca)
      if cmp ≠ 0 then return cmp else searchDictLoop nA nPat restA restB
  | _, _ => return signOf (nA < nPat) (nPat < nA)
termination_by zA => zA.length
decreasing_by
  · have hlen := (dropWhile_sublist (l := restA) isDecimal).length_le
    rw [length_cons]
    omega
  · rw [length_cons]
    omega

def searchCompare (sortType : SearchType) (zPat elem : Bytes) : Except SortStop ℤ :=
  match sortType with
  | .integer => do
    let vA ← (parseInt elem).mapError .failure
    let vB ← (parseInt zPat).mapError .failure
    return signOf (vA < vB) (vB < vA)
  | .dictionary => searchDictLoop elem.length zPat.length elem zPat
  | .ascii => return asciiCompare elem zPat

/-- The binary search between `lo` and `hi`. -/
def searchLoop (compare : Bytes → Except SortStop ℤ) (bDecreasing : Bool)
    (azElem : List Bytes) (lo hi : ℤ) : Except SortStop ℤ :=
  if lo ≤ hi then
    match azElem[(lo + (hi - lo) / 2).toNat]? with
    | none => .error .outside
    | some elem => do
      let cmp ← compare elem
      let cmp := directed bDecreasing cmp
      if cmp = 0 then return lo + (hi - lo) / 2
      else if cmp < 0 then searchLoop compare bDecreasing azElem (lo + (hi - lo) / 2 + 1) hi
      else searchLoop compare bDecreasing azElem lo (lo + (hi - lo) / 2 - 1)
  else return -1
termination_by (hi - lo + 1).toNat

/-- `lsearch -sorted` on the elements of the list, without other options. -/
def lsearchSorted (sortType : SearchType) (bDecreasing : Bool) (azElem : List Bytes)
    (zPat : Bytes) : Except SortStop ℤ :=
  searchLoop (searchCompare sortType zPat) bDecreasing azElem 0 (azElem.length - 1)

/-- The answer of a search: the index of an element that is `equal`, or `-1` if there is
none. -/
def Answers (equal : Bytes → Prop) (azElem : List Bytes) : Except SortStop ℤ → Prop
  | .ok found => (found = -1 ∧ ∀ z ∈ azElem, ¬equal z) ∨
      ∃ i : ℕ, found = i ∧ ∃ z ∈ azElem[i]?, equal z
  | .error _ => False

def Suits (sortType : SearchType) (z : Bytes) : Prop :=
  sortType = .integer → ∃ v, parseInt z = .ok v

/-- The smallest number that is no `int`. -/
def longNumber : Bytes := ascii "2147483648"

def NoDigit (z : Bytes) : Prop := ∀ c ∈ z, isDecimal c = false

variable {azElem : List Bytes} {bDecreasing : Bool} {zA zPat : Bytes}

theorem directed_eq_zero {cmp : ℤ} : directed bDecreasing cmp = 0 ↔ cmp = 0 := by
  unfold directed signOf
  cases bDecreasing with
  | false => rfl
  | true =>
    simp only [if_true]
    split_ifs <;> omega

theorem searchLoop_finds {compare : Bytes → Except SortStop ℤ} {sign : Bytes → ℤ} {lo hi : ℤ}
    (hcmp : ∀ z ∈ azElem, compare z = .ok (sign z)) (hsorted : azElem.Pairwise fun x y =>
      (directed bDecreasing (sign y) < 0 → directed bDecreasing (sign x) < 0) ∧
        (0 < directed bDecreasing (sign x) → 0 < directed bDecreasing (sign y)))
    (hlo : 0 ≤ lo) (hhi : hi < azElem.length)
    (hbelow : ∀ i : ℕ, i < lo → ∀ z ∈ azElem[i]?, sign z ≠ 0)
    (habove : ∀ i : ℕ, hi < i → ∀ z ∈ azElem[i]?, sign z ≠ 0) :
    Answers (sign · = 0) azElem (searchLoop compare bDecreasing azElem lo hi) := by
  fun_induction searchLoop compare bDecreasing azElem lo hi with
  | case1 lo hi hle hnone =>
    rw [getElem?_eq_none_iff] at hnone
    omega
  | case2 lo hi hle elem helem ihRight ihLeft =>
    obtain ⟨hmid, hget⟩ := List.getElem?_eq_some_iff.mp helem
    have hmem : elem ∈ azElem := hget ▸ getElem_mem hmid
    simp only [hcmp elem hmem, ok_bind]
    split_ifs with hzero hless
    · refine .inr ⟨_, (Int.toNat_of_nonneg (by omega)).symm, elem, helem, ?_⟩
      exact directed_eq_zero.mp hzero
    · refine ihRight (by omega) (by omega) (fun i hi' z hz => ?_) habove
      obtain ⟨hlt, hgetz⟩ := List.getElem?_eq_some_iff.mp hz
      refine directed_eq_zero.not.mp (?_ : directed bDecreasing (sign z) ≠ 0)
      rcases Nat.lt_or_ge i (lo + (hi - lo) / 2).toNat with hlt' | hge
      · have hpair := (pairwise_iff_getElem.mp hsorted i _ hlt hmid hlt').1
        rw [hget, hgetz] at hpair
        exact (hpair hless).ne
      · obtain rfl : i = (lo + (hi - lo) / 2).toNat := by omega
        rw [← hgetz, hget]
        exact hzero
    · refine ihLeft hlo (by omega) hbelow fun i hi' z hz => ?_
      obtain ⟨hlt, hgetz⟩ := List.getElem?_eq_some_iff.mp hz
      refine directed_eq_zero.not.mp (?_ : directed bDecreasing (sign z) ≠ 0)
      rcases Nat.lt_or_ge (lo + (hi - lo) / 2).toNat i with hlt' | hge
      · have hpair := (pairwise_iff_getElem.mp hsorted _ i hmid hlt hlt').2
        rw [hget, hgetz] at hpair
        exact (hpair (by omega)).ne'
      · obtain rfl : i = (lo + (hi - lo) / 2).toNat := by omega
        rw [← hgetz, hget]
        exact hzero
  | case3 lo hi hle =>
    refine .inl ⟨rfl, fun z hz => ?_⟩
    obtain ⟨i, hi', hget⟩ := mem_iff_getElem.mp hz
    have hsome : z ∈ azElem[i]? := List.getElem?_eq_some_iff.mpr ⟨hi', hget⟩
    rcases lt_or_ge (i : ℤ) lo with hlt | hge
    · exact hbelow i hlt z hsome
    · exact habove i (by omega) z hsome

theorem searchLoop_overflows {compare other : Bytes → Except SortStop ℤ} {lo hi : ℤ} {i : ℕ}
    (hother : ∀ z, other z = .error .overflow ∨ ∃ c ≠ 0, other z = .ok c ∧ compare z = .ok c)
    (h : searchLoop compare bDecreasing azElem lo hi = .ok i) :
    searchLoop other bDecreasing azElem lo hi = .error .overflow := by
  fun_induction searchLoop compare bDecreasing azElem lo hi with
  | case1 => cases h
  | case2 lo hi hle elem helem ihRight ihLeft =>
    rw [searchLoop, if_pos hle, helem]
    rcases hother elem with hover | ⟨c, hne, hc, hsame⟩
    · simp only [hover, error_bind]
    · rw [hsame, ok_bind] at h
      simp only [hc, ok_bind]
      rw [if_neg (directed_eq_zero.not.mpr hne)] at h ⊢
      split_ifs at h ⊢
      · exact ihRight h
      · exact ihLeft h
  | case3 =>
    have hneg : (-1 : ℤ) = i := Except.ok.inj h
    omega

/-! ## The order of a mode -/

def textInt (z : Bytes) : ℤ := ((parseInt z).toOption).getD 0

def searchSign : SearchType → Bytes → Bytes → ℤ
  | .ascii => asciiCompare
  | .integer => fun x y => signOf (textInt x < textInt y) (textInt y < textInt x)
  | .dictionary => dictSign

variable {sortType : SearchType} {S : Set Bytes} {x y : Bytes}

theorem preorderSigns_key {ι κ : Type} [LinearOrder κ] (key : ι → κ) (S : Set ι) :
    PreorderSigns (fun x y => signOf (key x < key y) (key y < key x)) S := by
  have hnonpos (x y : ι) : signOf (key x < key y) (key y < key x) ≤ 0 ↔ key x ≤ key y := by
    rw [signOf_nonpos_iff]
    exact ⟨fun h => le_of_not_gt fun hlt => (h hlt).asymm hlt, fun h hlt => absurd hlt h.not_gt⟩
  refine ⟨fun a _ b _ => ?_, fun a _ b _ c _ hab hbc => ?_⟩
  · simp only [signOf]
    omega
  · rw [hnonpos] at hab hbc ⊢
    exact hab.trans hbc

theorem PreorderSigns.directed {ι : Type} {sign : ι → ι → ℤ} {S : Set ι}
    (h : PreorderSigns sign S) (bDecreasing : Bool) :
    PreorderSigns (fun x y => directed bDecreasing (sign x y)) S := by
  cases bDecreasing with
  | false => exact h
  | true =>
    have hneg (c : ℤ) : Sorting.directed true c ≤ 0 ↔ 0 ≤ c := directed_nonpos_iff
    refine ⟨fun a ha b hb => ?_, fun a ha b hb c hc hab hbc => ?_⟩
    · simp only [Sorting.directed, signOf, h.opposite a ha b hb]
      split_ifs <;> omega
    · rw [hneg] at hab hbc ⊢
      have hca := h.trans c hc b hb a ha (by rw [h.opposite b hb c hc]; omega)
        (by rw [h.opposite a ha b hb]; omega)
      rw [h.opposite a ha c hc] at hca
      omega

theorem dictTokens_length_le (z : Bytes) : (dictTokens z).length ≤ z.length := by
  fun_induction dictTokens z with
  | case1 => rfl
  | case2 c rest ih =>
    have hrest : (if isDecimal c then rest.dropWhile isDecimal else rest).length ≤ rest.length := by
      split
      · exact (dropWhile_sublist isDecimal).length_le
      · rfl
    exact Nat.succ_le_succ (ih.trans hrest)

theorem NoDigit.dictTokens_length {z : Bytes} (h : NoDigit z) :
    (dictTokens z).length = z.length := by
  induction z with
  | nil => simp [dictTokens]
  | cons c z ih =>
    obtain ⟨hc, hz⟩ := forall_mem_cons.mp h
    rw [dictTokens, hc, length_cons, length_cons]
    exact congrArg (· + 1) (ih hz)

theorem noDigit_of_prefix {q : Bytes} (h : dictTokens q <+: dictTokens y) (hy : NoDigit y) :
    NoDigit q := by
  induction q generalizing y with
  | nil => exact nofun
  | cons d q ih =>
    rcases y with _ | ⟨c, y⟩
    · rw [dictTokens, dictTokens] at h
      cases prefix_nil.mp h
    · obtain ⟨hc, hy⟩ := forall_mem_cons.mp hy
      rw [dictTokens, dictTokens, hc, cons_prefix_cons] at h
      have hd : isDecimal d = false := by
        have hfirst := congrArg (fun t : DictToken => (ofLex t).1) h.1
        rw [← Bool.not_eq_true]
        intro hdec
        rw [headToken, headToken, hdec, hc] at hfirst
        have hfold : foldLetter c = 0x30 := UInt8.toNat.inj hfirst.symm
        have hsame := isDecimal_foldLetter c
        rw [hfold, hc] at hsame
        cases hsame
      rw [hd] at h
      exact forall_mem_cons.mpr ⟨hd, ih h.2 hy⟩

theorem dictSign_preorder (h : ∀ z ∈ S, NoDigit z) (zPat : Bytes) :
    PreorderSigns dictSign (insert zPat S) := by
  refine preorderSigns_iff _ |>.mpr fun q hq x _ y hy hm => ?_
  have hlen : (dictTokens y).length ≤ (dictTokens q).length := by
    have hsize (hq : NoDigit q) : (dictTokens y).length ≤ (dictTokens q).length := by
      rw [hq.dictTokens_length]
      exact (dictTokens_length_le y).trans hm.sizeRight
    rcases hq with rfl | hq
    · rcases hy with rfl | hy
      · rfl
      · exact hsize ( noDigit_of_prefix hm.right (h y hy))
    · exact hsize (h q hq)
  have hsame := hm.right.eq_of_length_le hlen
  have hzero : firstDifference (dictTokens x) (dictTokens y) = 0 :=
    firstDifference_eq_zero_iff.mpr (.inr (hsame ▸ hm.left))
  exact absurd hzero hm.differ.ne

theorem searchSign_preorder (h : sortType = .dictionary → ∀ z ∈ S, NoDigit z) (zPat : Bytes) :
    PreorderSigns (searchSign sortType) (insert zPat S) := by
  cases sortType with
  | ascii =>
    have hkey : asciiCompare = _ := funext fun x => funext (asciiCompare_eq x)
    rw [searchSign, hkey]
    convert preorderSigns_key (List.map UInt8.toNat) (insert zPat S)
  | integer => exact preorderSigns_key textInt _
  | dictionary => exact dictSign_preorder (h rfl) zPat

variable {σ : Type} {interp : SortInterp σ} {pCtx : SortCtx}

theorem compareFields_yields (h : Uninterrupted interp) (hmode : pCtx.eMode = sortType.sortMode)
    (hx : Suits sortType x) (hy : Suits sortType y) :
    Yields (compareFields interp pCtx x y) (searchSign sortType x y) := by
  unfold compareFields
  rw [hmode]
  cases sortType with
  | ascii => exact Yields.pure _
  | integer =>
    obtain ⟨vx, hvx⟩ := hx rfl
    obtain ⟨vy, hvy⟩ := hy rfl
    simp only [SearchType.sortMode, searchSign, textInt, hvx, hvy]
    exact (Yields.pure _).bind ((Yields.pure _).bind (Yields.pure _))
  | dictionary => exact dictLoop_yields h _ _ _ _ x y

theorem searchDictLoop_nil (nA nPat : ℕ) :
    searchDictLoop nA nPat [] zPat = .ok (signOf (nA < nPat) (nPat < nA)) := by
  simp [searchDictLoop]

theorem searchDictLoop_noDigit (h : Uninterrupted interp) (nA nPat ia ib : ℕ)
    (zPat : Bytes) (hA : NoDigit zA) : ∃ c, searchDictLoop nA nPat zA zPat = .ok c ∧
      Yields (dictLoop interp nA nPat ia ib zA zPat) c := by
  induction zA generalizing zPat ia ib with
  | nil =>
    refine ⟨_, searchDictLoop_nil nA nPat, ?_⟩
    simp only [dictLoop]
    exact Yields.pure _
  | cons ca restA ih =>
    obtain ⟨hca, hrest⟩ := forall_mem_cons.mp hA
    rcases zPat with _ | ⟨cb, restB⟩
    · simp only [searchDictLoop, dictLoop]
      exact ⟨_, rfl, Yields.pure _⟩
    · rw [searchDictLoop, dictLoop, hca]
      simp only [Bool.false_eq_true, false_and, if_false]
      split_ifs
      · exact ⟨_, rfl, (h.pollAt ia).bind (Yields.pure _)⟩
      · obtain ⟨c, hc, hyields⟩ := ih (ia + 1) (ib + 1) restB hrest
        exact ⟨c, hc, (h.pollAt ia).bind hyields⟩

theorem searchCompare_eq (hdigit : sortType = .dictionary → NoDigit x) (hx : Suits sortType x)
    (hPat : Suits sortType zPat) :
    searchCompare sortType zPat x = .ok (searchSign sortType x zPat) := by
  cases sortType with
  | ascii => rfl
  | integer =>
    obtain ⟨vx, hvx⟩ := hx rfl
    obtain ⟨v, hv⟩ := hPat rfl
    simp only [searchCompare, searchSign, textInt, hvx, hv]
    rfl
  | dictionary =>
    have hquiet : Uninterrupted quietInterp := fun s => ⟨s, rfl⟩
    obtain ⟨c, hc, hyields⟩ := searchDictLoop_noDigit hquiet x.length zPat.length 0 0 zPat
      (hdigit rfl)
    obtain ⟨s', hs'⟩ := hyields ()
    rw [searchCompare, hc, (dictLoop_yields hquiet x.length zPat.length 0 0 x zPat).run_eq hs']
    rfl

theorem runInt_cases (run : Bytes) : (∃ num, runInt run = .ok num) ∨
    runInt run = .error .overflow := by
  rcases hrun : runInt run with e | num
  · obtain ⟨c, -, num, hfail⟩ := exists_error_of_foldlM hrun
    split_ifs at hfail
    rw [← Except.error.inj hfail]
    exact .inr rfl
  · exact .inl ⟨num, rfl⟩

theorem foldLetter_apart {c d d' : Byte} (hc : isDecimal c = false) (hd : isDecimal d = true)
    (hd' : isDecimal d' = true) :
    signOf (foldLetter c < foldLetter d) (foldLetter d < foldLetter c) =
        signOf (foldLetter c < foldLetter d') (foldLetter d' < foldLetter c) ∧
      signOf (foldLetter c < foldLetter d) (foldLetter d < foldLetter c) ≠ 0 := by
  rw [← isDecimal_foldLetter] at hc hd hd'
  have hrange (b : Byte) : isDecimal b = true ↔ 48 ≤ b.toNat ∧ b.toNat ≤ 57 := by
    rw [isDecimal, Bool.and_eq_true, decide_eq_true_eq, decide_eq_true_eq,
      UInt8.le_iff_toNat_le, UInt8.le_iff_toNat_le]
    rfl
  rw [← Bool.not_eq_true, hrange] at hc
  rw [hrange] at hd hd'
  simp only [signOf, UInt8.lt_iff_toNat_lt]
  split_ifs <;> omega

/-- The number `2147483648` in the place of a number cannot be compared with another one. -/
theorem searchDictLoop_long {w : Bytes} (hw : NoDigit w) {d : Byte} (hd : isDecimal d = true)
    (zA rest : Bytes) (n : ℕ) :
    searchDictLoop (n + zA.length) (n + (w ++ longNumber).length) zA (w ++ longNumber) =
        .error .overflow ∨
      ∃ c ≠ 0, searchDictLoop (n + zA.length) (n + (w ++ longNumber).length) zA
          (w ++ longNumber) = .ok c ∧
        searchDictLoop (n + zA.length) (n + (w ++ d :: rest).length) zA (w ++ d :: rest) =
          .ok c := by
  induction w generalizing zA n with
  | nil =>
    rcases zA with _ | ⟨a, zA⟩
    · refine .inr ⟨-1, by decide, ?_, ?_⟩
      · rw [searchDictLoop_nil, signOf, if_neg (by simp), if_pos (by simp [longNumber, ascii])]
        rfl
      · rw [searchDictLoop_nil, signOf, if_neg (by simp), if_pos (by simp)]
        rfl
    · have hbig : runInt (0x32 :: (ascii "147483648").takeWhile isDecimal) = .error .overflow := by
        decide +kernel
      have hlong : longNumber = 0x32 :: ascii "147483648" := rfl
      rw [nil_append, nil_append, hlong, searchDictLoop, searchDictLoop, hd]
      cases ha : isDecimal a
      · obtain ⟨hsame, hne⟩ := foldLetter_apart ha (d := 0x32) rfl hd
        simp only [Bool.false_eq_true, false_and, if_false]
        rw [← hsame, if_pos hne, if_pos hne]
        exact .inr ⟨_, hne, rfl, rfl⟩
      · refine .inl ?_
        rw [if_pos ⟨rfl, rfl⟩, hbig]
        rcases runInt_cases (a :: zA.takeWhile isDecimal) with ⟨num, hnum⟩ | hnum
        · rw [hnum]
          rfl
        · rw [hnum]
          rfl
  | cons c w ih =>
    obtain ⟨hc, hw⟩ := forall_mem_cons.mp hw
    rcases zA with _ | ⟨a, zA⟩
    · refine .inr ⟨-1, by decide, ?_, ?_⟩
      · rw [searchDictLoop_nil, signOf, if_neg (by simp), if_pos (by simp)]
        rfl
      · rw [searchDictLoop_nil, signOf, if_neg (by simp), if_pos (by simp)]
        rfl
    · have hsize (b : Byte) (v : Bytes) : n + (b :: v).length = n + 1 + v.length := by
        rw [length_cons]
        omega
      simp only [cons_append, hsize, searchDictLoop, hc, Bool.false_eq_true, and_false, if_false]
      split_ifs with hne
      · exact .inr ⟨_, hne, rfl, rfl⟩
      · exact ih hw zA (n + 1)

theorem exists_digit {z : Bytes} (h : ¬NoDigit z) :
    ∃ w d rest, z = w ++ d :: rest ∧ NoDigit w ∧ isDecimal d = true := by
  induction z with
  | nil => exact absurd nofun h
  | cons c z ih =>
    by_cases hc : isDecimal c = true
    · exact ⟨[], c, z, rfl, nofun, hc⟩
    · have hz : ¬NoDigit z := fun hz => h (forall_mem_cons.mpr ⟨by simpa using hc, hz⟩)
      obtain ⟨w, d, rest, rfl, hw, hd⟩ := ih hz
      exact ⟨c :: w, d, rest, rfl, forall_mem_cons.mpr ⟨by simpa using hc, hw⟩, hd⟩

/-! ## Searching what has been sorted -/

theorem PreorderSigns.separates {ι : Type} {sign : ι → ι → ℤ} {S : Set ι} {p x y : ι}
    (h : PreorderSigns sign (insert p S)) (hx : x ∈ S) (hy : y ∈ S) (hxy : sign x y ≤ 0) :
    (sign y p < 0 → sign x p < 0) ∧ (0 < sign x p → 0 < sign y p) := by
  have hp : p ∈ insert p S := Set.mem_insert p S
  have hx' := Set.mem_insert_of_mem p hx
  have hy' := Set.mem_insert_of_mem p hy
  have hxp := h.opposite x hx' p hp
  have hyp := h.opposite y hy' p hp
  constructor
  · intro hlt
    have hle := h.trans x hx' y hy' p hp hxy hlt.le
    by_contra hnot
    have hback := h.trans p hp x hx' y hy' (by omega) hxy
    omega
  · intro hlt
    have hback := h.trans p hp x hx' y hy' (by omega) hxy
    by_contra hnot
    have hle := h.trans x hx' y hy' p hp hxy (by omega)
    omega

theorem PreorderSigns.totalPreorderOn {sign : Bytes → Bytes → ℤ} (h : PreorderSigns sign S)
    {T : Set (Bytes × ℕ)} (hT : ∀ x ∈ T, textBytes x ∈ S) :
    TotalPreorderOn (InOrder fun x y => sign (textBytes x) (textBytes y)) T := by
  refine ⟨fun x hx y hy => ?_, fun x hx y hy z hz =>
    h.trans _ (hT x hx) _ (hT y hy) _ (hT z hz)⟩
  have hxy := h.opposite _ (hT x hx) _ (hT y hy)
  simp only [InOrder]
  omega

theorem Answers.congr {equal equal' : Bytes → Prop} {found : Except SortStop ℤ}
    (h : Answers equal azElem found) (hiff : ∀ z ∈ azElem, equal z ↔ equal' z) :
    Answers equal' azElem found := by
  rcases found with e | found
  · exact h
  · obtain ⟨hnone, hall⟩ | ⟨i, hi, z, hz, hequal⟩ := h
    · exact .inl ⟨hnone, fun z hz hz' => hall z hz ((hiff z hz).mpr hz')⟩
    · exact .inr ⟨i, hi, z, hz, (hiff z (mem_of_getElem? hz)).mp hequal⟩

theorem lsearchSorted_finds
    (hsorted : azElem.Pairwise fun x y => directed bDecreasing (searchSign sortType x y) ≤ 0)
    (hdigit : sortType = .dictionary → ∀ z ∈ azElem, NoDigit z)
    (hsuit : ∀ z ∈ azElem, Suits sortType z) (hPat : Suits sortType zPat) :
    Answers (fun z => searchSign sortType z zPat = 0) azElem
      (lsearchSorted sortType bDecreasing azElem zPat) := by
  have hsigns := (searchSign_preorder (S := {z | z ∈ azElem}) hdigit zPat).directed bDecreasing
  refine searchLoop_finds (fun z hz => searchCompare_eq (fun hd => hdigit hd z hz) (hsuit z hz)
    hPat) ?_ le_rfl (by omega) (fun i hi => by omega) fun i hi z hz => ?_
  · exact hsorted.imp_of_mem fun hx hy hxy => hsigns.separates hx hy hxy
  · rw [getElem?_eq_none (by omega)] at hz
    cases hz

theorem dictSign_self (z : Bytes) : dictSign z z = 0 := by
  rw [dictSign, sizedSign, if_pos (firstDifference_eq_zero_iff.mpr (.inl prefix_rfl)), signOf,
    if_neg (lt_irrefl _)]
  rfl

theorem lsearchSorted_overflows {e : Bytes} (he : ¬NoDigit e) {i : ℕ}
    (h : lsearchSorted .dictionary bDecreasing azElem e = .ok i) :
    ∃ zPat, lsearchSorted .dictionary bDecreasing azElem zPat = .error .overflow := by
  obtain ⟨w, d, rest, rfl, hw, hd⟩ := exists_digit he
  refine ⟨w ++ longNumber, searchLoop_overflows (fun z => ?_) h⟩
  have hlong := searchDictLoop_long hw hd z rest 0
  rwa [Nat.zero_add, Nat.zero_add, Nat.zero_add] at hlong

theorem foldlM_of_appendSorted {elems : List (Bytes × ℕ)} {prev : Option (Bytes × ℕ)}
    {zOut r : TString} {s s' : σ}
    (h : (appendSorted interp false prev elems zOut).run s = .ok (r, s')) :
    (elems.map elementOf).foldlM (listAppend interp.nResultLimit) zOut = .ok r := by
  induction elems generalizing prev zOut s with
  | nil => exact congrArg (Except.ok ∘ Prod.fst) (Except.ok.inj h)
  | cons e rest ih =>
    rw [appendSorted, StateT.run_bind, bind_eq_ok] at h
    obtain ⟨⟨_, s₁⟩, -, h⟩ := h
    rw [StateT.run_bind, bind_eq_ok] at h
    obtain ⟨⟨z, s₂⟩, htext, h⟩ := h
    have hz : z = textBytes e := by
      unfold textOf at htext
      split_ifs at htext
      · exact (congrArg Prod.fst (Except.ok.inj htext)).symm
      · cases htext
    rw [if_neg (by simp), StateT.run_bind, bind_eq_ok] at h
    obtain ⟨⟨zOut', s₃⟩, happend, h⟩ := h
    rw [map_cons, foldlM_cons, elementOf, ← hz]
    rcases hlist : listAppend interp.nResultLimit zOut ⟨z, Strings.tagsOf e.2⟩ with e' | zOut''
    · rw [hlist] at happend
      cases happend
    · rw [hlist] at happend
      obtain rfl : zOut'' = zOut' := congrArg Prod.fst (Except.ok.inj happend)
      exact ih h

/-- A search of a sorted list, in the mode it was sorted in, answers for every pattern unless
the mode is that of the dictionary and an element has a digit. -/
theorem lsearchSorted_answers_iff (interp : SortInterp σ) (h : Uninterrupted interp)
    (sortType : SearchType) (pCtx : SortCtx) (hmode : pCtx.eMode = sortType.sortMode)
    (hindex : pCtx.iIndex < 0) (scratch : Scratch) (a : SortArrays) (n : ℕ) (ha : a.HasCount n)
    (hcount : n ≤ maxListElements) (hscratch : scratch.Granted n)
    (hread : ∀ x ∈ a.elems, Readable x) (hsuits : ∀ x ∈ a.elems, Suits sortType (textBytes x))
    (hquote : ∀ x ∈ a.elems, QuotingGranted (textBytes x)) {s s' : σ} {r : TString}
    (hr : (lsortElements interp pCtx false scratch a n).run s = .ok (r, s'))
    {azElem : List Bytes} (hsplit : eagleSplitList r.bytes = .ok azElem) :
    (∀ zPat, Suits sortType zPat →
      Answers (fun z => Yields (compareFields interp pCtx z zPat) 0) azElem
        (lsearchSorted sortType pCtx.bDecreasing azElem zPat)) ↔
      (sortType = .dictionary → ∀ x ∈ a.elems, NoDigit (textBytes x)) := by
  have hcmp : ComparesBy interp pCtx {x | x ∈ a.elems} fun x y =>
      directed pCtx.bDecreasing (searchSign sortType (textBytes x) (textBytes y)) := by
    intro x hx y hy
    exact lsortCompare_yields hindex (hread x hx) (hread y hy)
      (compareFields_yields h hmode (hsuits x hx) (hsuits y hy))
  rw [lsortElements, StateT.run_bind, bind_eq_ok] at hr
  obtain ⟨⟨out, s₁⟩, hsort, hbuild⟩ := hr
  obtain ⟨out', hout, -, -, -, hperm⟩ := lsortMergeSort_passes
    (Q := fun _ ys => ys.Perm a.elems) h ha hcount hscratch hcmp
    (fun _ _ _ hpass hxs => hpass.perm.trans hxs) (List.Perm.refl _)
  obtain rfl := hout.run_eq hsort
  -- the elements that the search is given are the sorted ones
  have hazElem : azElem = out.elems.map textBytes := by
    have hlist := foldlM_of_appendSorted hbuild
    rcases hnil : out.elems with _ | ⟨x, rest⟩
    · rw [hnil] at hlist
      cases hlist
      exact (eagleSplitList_eq_ok.mp hsplit).2.unique rfl
    · have htext : r = joinedText (out.elems.map elementOf) := by
        refine ((listText_eq_ok (by simp [hnil]) fun y hy => ?_).mp hlist).2.symm
        obtain ⟨x, hx, rfl⟩ := mem_map.mp hy
        exact hquote x (hperm.mem_iff.mp hx)
      rw [htext] at hsplit
      have hsame := eq_of_eagleSplitList_joinElements hsplit
      rw [hsame, map_map, hnil]
      rfl
  have hmem (z : Bytes) : z ∈ azElem ↔ ∃ x ∈ a.elems, textBytes x = z := by
    rw [hazElem, mem_map]
    exact ⟨fun ⟨x, hx, hz⟩ => ⟨x, hperm.mem_iff.mp hx, hz⟩,
      fun ⟨x, hx, hz⟩ => ⟨x, hperm.mem_iff.mpr hx, hz⟩⟩
  have hsuit (z : Bytes) (hz : z ∈ azElem) : Suits sortType z := by
    obtain ⟨x, hx, rfl⟩ := (hmem z).mp hz
    exact hsuits x hx
  have hequal (zPat : Bytes) (hPat : Suits sortType zPat) (z : Bytes) (hz : z ∈ azElem) :
      searchSign sortType z zPat = 0 ↔ Yields (compareFields interp pCtx z zPat) 0 := by
    have hyields := compareFields_yields h hmode (hsuit z hz) hPat
    refine ⟨fun hzero => hzero ▸ hyields, fun hzero => ?_⟩
    obtain ⟨s', hs'⟩ := hzero s
    exact (hyields.run_eq hs').symm
  constructor
  · rintro hall rfl x hx
    have hx' : textBytes x ∈ azElem := (hmem _).mpr ⟨x, hx, rfl⟩
    by_contra hdigit
    have hself := hall (textBytes x) nofun
    rcases hfound : lsearchSorted .dictionary pCtx.bDecreasing azElem (textBytes x) with e | found
    · rw [hfound] at hself
      exact hself
    · rw [hfound] at hself
      obtain ⟨-, hnone⟩ | ⟨i, rfl, -⟩ := hself
      · exact hnone _ hx' ((hequal _ nofun _ hx').mp (dictSign_self _))
      · obtain ⟨zPat, hover⟩ := lsearchSorted_overflows hdigit hfound
        have hlong := hall zPat nofun
        rw [hover] at hlong
        exact hlong
  · intro hdigit zPat hPat
    have hnone (hd : sortType = .dictionary) (z : Bytes) (hz : z ∈ azElem) : NoDigit z := by
      obtain ⟨x, hx, rfl⟩ := (hmem z).mp hz
      exact hdigit hd x hx
    have hS : TotalPreorderOn (InOrder fun x y => directed pCtx.bDecreasing
        (searchSign sortType (textBytes x) (textBytes y))) {x | x ∈ a.elems} := by
      have hsigns := (searchSign_preorder (S := {z | z ∈ azElem}) hnone []).directed
        pCtx.bDecreasing
      exact hsigns.totalPreorderOn fun x hx => .inr ((hmem _).mpr ⟨x, hx, rfl⟩)
    obtain ⟨out', hout', -, hstable⟩ := lsortMergeSort_yields h ha hcount hscratch hcmp hS
    obtain rfl := hout'.run_eq hsort
    refine (lsearchSorted_finds ?_ hnone hsuit hPat).congr (hequal zPat hPat)
    rw [hazElem, pairwise_map]
    exact hstable.sorted

def dictionarySort : SortCtx := ⟨.dictionary, false, .plain [], -1⟩

/-- The elements `b`, `A` and `c`. -/
def mixedLetters : SortArrays := ⟨[ascii "b", ascii "A", ascii "c"], [1, 1, 1]⟩

theorem lsearchSorted_answers_iff_letters :
    (∀ zPat, Suits .dictionary zPat →
      Answers (fun z => Yields (compareFields quietInterp dictionarySort z zPat) 0)
        [ascii "A", ascii "b", ascii "c"]
        (lsearchSorted .dictionary false [ascii "A", ascii "b", ascii "c"] zPat)) ↔
      (SearchType.dictionary = .dictionary → ∀ x ∈ mixedLetters.elems, NoDigit (textBytes x)) := by
  have hr : (lsortElements quietInterp dictionarySort false ⟨true, true, mixedLetters⟩
      mixedLetters 3).run () = .ok (.plain (ascii "A b c"), ()) := by
    decide +kernel
  exact lsearchSorted_answers_iff quietInterp (fun s => ⟨s, rfl⟩) .dictionary dictionarySort rfl
    (by decide) ⟨true, true, mixedLetters⟩ mixedLetters 3 ⟨rfl, rfl⟩ (by decide)
    ⟨rfl, rfl, rfl, rfl⟩ (by decide) (fun _ _ => nofun) (by decide +kernel) hr (by decide +kernel)

/-- `lsearch -sorted -dictionary {1 5 3000000000} 3000000000` adds up a number that is no
`int`. -/
theorem lsearchSorted_overflows_digits :
    (lsortElements quietInterp dictionarySort false ⟨true, true, ⟨[[], [], []], [0, 0, 0]⟩⟩
        ⟨[ascii "5", ascii "3000000000", ascii "1"], [1, 10, 1]⟩ 3).run () =
      .ok (.plain (ascii "1 5 3000000000"), ()) ∧
    eagleSplitList (ascii "1 5 3000000000") =
      .ok [ascii "1", ascii "5", ascii "3000000000"] ∧
    lsearchSorted .dictionary false [ascii "1", ascii "5", ascii "3000000000"]
      (ascii "3000000000") = .error .overflow := by
  refine ⟨?_, ?_, ?_⟩
  · decide +kernel
  · decide +kernel
  · decide +kernel

end Sorting

end Th8
