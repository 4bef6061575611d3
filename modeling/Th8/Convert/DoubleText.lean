import Mathlib.Data.List.DropRight
import Th8.Bigint.Library
import Th8.Convert.Double
import Th8.Number.DecimalDigits

/-!
# The text of a double

`Th8_SetResultDouble`: as many digits as `::tcl_precision` asks for, or the fewest that read
back, in fixed or in scientific notation.
-/

namespace Th8

open Bigint Number List

/-- The precision that is read from `::tcl_precision`, from its value if it is set.  Zero
asks for the fewest digits that read back. -/
def readPrecision (zP : Option Bytes) : ℕ :=
  match zP.map parseInt with
  | some (.ok v) => if 0 ≤ v ∧ v ≤ 17 then v.toNat else 0
  | _ => 0

/-- The digits and the exponent denote `rVal` for the reader of doubles. -/
def readsBack (rVal nDig : ℕ) (zTry : List ℕ × ℤ) : Bool :=
  let zCheck := zTry.1.map digitChar ++ 0x65 :: decimal (zTry.2 - (nDig - 1))
  match parseDouble false zCheck with
  | .ok (rebuilt, _) => rebuilt == rVal
  | .error _ => false

/-- The loop that looks for the fewest digits, with so many rounds left; all 17 are left
where none read back. -/
def shortestDigits (rVal : ℕ) (zDig : List ℕ) (expn : ℤ) : ℕ → ℕ → List ℕ × ℤ
  | 0, _ => (zDig, expn)
  | rounds + 1, nDig =>
    if readsBack rVal nDig (roundDigits zDig nDig expn) then roundDigits zDig nDig expn
    else shortestDigits rVal zDig expn rounds (nDig + 1)

def stripZeros : List ℕ → List ℕ
  | [] => []
  | d :: zDig => d :: zDig.rdropWhile (· == 0)

/-- `D.DDDe+NN`. -/
def scientificText (zDig : List ℕ) (expn : ℤ) : Bytes :=
  let n := expn.natAbs
  (zDig.take 1).map digitChar ++
    (if 1 < zDig.length then 0x2e :: (zDig.drop 1).map digitChar else []) ++
    [0x65, if 0 ≤ expn then 0x2b else 0x2d] ++
    (if 100 ≤ n then [n / 100, n / 10 % 10, n % 10] else [n / 10, n % 10]).map digitChar

/-- `DDDD.DDD`. -/
def fixedText (zDig : List ℕ) (expn : ℤ) : Bytes :=
  let dotPos := expn + 1
  if dotPos ≤ 0 then
    ascii "0." ++ List.replicate (-dotPos).toNat 0x30 ++ zDig.map digitChar
  else if zDig.length ≤ dotPos then
    zDig.map digitChar ++ List.replicate (dotPos.toNat - zDig.length) 0x30 ++ ascii ".0"
  else
    (zDig.take dotPos.toNat).map digitChar ++ 0x2e :: (zDig.drop dotPos.toNat).map digitChar

def chooseDigits (nSig rVal : ℕ) : List ℕ × ℤ :=
  let zDig := extractDigits17 rVal
  if nSig = 0 then shortestDigits rVal zDig.1 zDig.2 17 1 else roundDigits zDig.1 nSig zDig.2

def formatDigits (nSig : ℕ) (zDig : List ℕ × ℤ) : Bytes :=
  let threshold := if nSig = 0 then 17 else zDig.1.length
  if zDig.2 < -4 ∨ threshold ≤ zDig.2 then scientificText (stripZeros zDig.1) zDig.2
  else fixedText (stripZeros zDig.1) zDig.2

/-- `Th8_SetResultDouble`: the result for the double `rVal`. -/
def setResultDouble (nSig rVal : ℕ) : Bytes :=
  let sign : Bytes := if rVal >>> 63 = 0 then [] else [0x2d]
  let rVal := rVal % 2 ^ 63
  if infBits < rVal then ascii "NaN"
  else if rVal = infBits then sign ++ ascii "Inf"
  else if rVal = 0 then sign ++ ascii "0.0"
  else sign ++ formatDigits nSig (chooseDigits nSig rVal)

example : setResultDouble 0 0xC059000000000000 = ascii "-100.0" := by decide +kernel

theorem readPrecision_le (zP : Option Bytes) : readPrecision zP ≤ 17 := by
  unfold readPrecision
  split
  · split_ifs with hrange
    · omega
    · exact Nat.zero_le _
  · exact Nat.zero_le _

/-! ## The text fits its buffer -/

def doubleChars : Bytes := ascii "0123456789+-.eINafn"

structure DoubleDigits (zDig : List ℕ) (expn : ℤ) : Prop where
  pos : 0 < zDig.length
  length_le : zDig.length ≤ 17
  le_nine : ∀ d ∈ zDig, d ≤ 9
  low : -340 ≤ expn
  high : expn ≤ 359

theorem digitChar_mem {d : ℕ} (h : d ≤ 9) : digitChar d ∈ doubleChars := by
  have hall : ∀ d ∈ List.range 10, digitChar d ∈ doubleChars := by decide
  exact hall d (mem_range.mpr (Nat.lt_succ_iff.mpr h))

variable {zDig : List ℕ}

theorem map_digitChar_mem (h : ∀ d ∈ zDig, d ≤ 9) {c : Byte} (hc : c ∈ zDig.map digitChar) :
    c ∈ doubleChars := by
  obtain ⟨d, hd, rfl⟩ := mem_map.mp hc
  exact digitChar_mem (h d hd)

theorem stripZeros_subset (zDig : List ℕ) : stripZeros zDig ⊆ zDig := by
  cases zDig with
  | nil => exact List.Subset.refl _
  | cons d zDig => exact cons_subset_cons d ( rdropWhile_prefix _ _).subset

theorem stripZeros_length (zDig : List ℕ) : (stripZeros zDig).length ≤ zDig.length := by
  cases zDig with
  | nil => exact le_rfl
  | cons d zDig => exact Nat.succ_le_succ ( rdropWhile_prefix _ _).length_le

variable {expn : ℤ}

theorem DoubleDigits.stripZeros (h : DoubleDigits zDig expn) :
    DoubleDigits (stripZeros zDig) expn where
  pos := by
    cases zDig with
    | nil => exact absurd h.pos (by simp)
    | cons d zDig => exact Nat.succ_pos _
  length_le := (stripZeros_length zDig).trans h.length_le
  le_nine := fun d hd => h.le_nine d (stripZeros_subset zDig hd)
  low := h.low
  high := h.high

theorem DoubleDigits.round (hlength : zDig.length = 17) (hnine : ∀ d ∈ zDig, d ≤ 9)
    (hlow : -340 ≤ expn) (hhigh : expn ≤ 358) {nDig : ℕ} (hn : 0 < nDig) (hn' : nDig ≤ 17) :
    DoubleDigits (roundDigits zDig nDig expn).1 (roundDigits zDig nDig expn).2 := by
  obtain ⟨hlength', hnine', hlow', hhigh'⟩ := roundDigits_spec expn hn (by omega) hnine
  exact ⟨by omega, by omega, hnine', by omega, by omega⟩

theorem shortestDigits_cases (rVal : ℕ) (zDig : List ℕ) (expn : ℤ) (rounds nDig : ℕ) :
    shortestDigits rVal zDig expn rounds nDig = (zDig, expn) ∨
      ∃ n, nDig ≤ n ∧ n < nDig + rounds ∧
        shortestDigits rVal zDig expn rounds nDig = roundDigits zDig n expn := by
  induction rounds generalizing nDig with
  | zero => exact .inl rfl
  | succ rounds ih =>
    rw [shortestDigits]
    by_cases hreads : readsBack rVal nDig (roundDigits zDig nDig expn) = true
    · rw [if_pos hreads]
      exact .inr ⟨nDig, le_rfl, by omega, rfl⟩
    · rw [if_neg hreads]
      obtain hnone | ⟨n, hle, hlt, hround⟩ := ih (nDig + 1)
      · exact .inl hnone
      · exact .inr ⟨n, by omega, by omega, hround⟩

theorem DoubleDigits.shortest (rVal : ℕ) (hlength : zDig.length = 17) (hnine : ∀ d ∈ zDig, d ≤ 9)
    (hlow : -340 ≤ expn) (hhigh : expn ≤ 358) :
    DoubleDigits (shortestDigits rVal zDig expn 17 1).1 (shortestDigits rVal zDig expn 17 1).2 := by
  obtain hall | ⟨n, hle, hlt, hround⟩ := shortestDigits_cases rVal zDig expn 17 1
  · rw [hall]
    exact ⟨by simp [hlength], hlength.le, hnine, hlow, by omega⟩
  · rw [hround]
    exact .round hlength hnine hlow hhigh (by omega) (by omega)

theorem chooseDigits_doubleDigits {nSig rVal : ℕ} (hn : nSig ≤ 17) (hpos : 0 < rVal)
    (hfin : rVal < infinityBits) :
    DoubleDigits (chooseDigits nSig rVal).1 (chooseDigits nSig rVal).2 := by
  obtain ⟨hlength, hnine, hlow, hhigh⟩ := extractDigits17_spec hpos hfin
  unfold chooseDigits
  simp only
  split_ifs with hzero
  · exact .shortest rVal hlength hnine hlow hhigh
  · exact .round hlength hnine hlow hhigh (Nat.pos_of_ne_zero hzero) hn

/-- The text of a double: with its terminator it has room in the buffer of the source. -/
structure DoubleText (z : Bytes) : Prop where
  ne_nil : z ≠ []
  length_lt : z.length < 80
  mem : ∀ c ∈ z, c ∈ doubleChars

theorem scientificText_length (expn : ℤ) (h : zDig.length ≤ 17) :
    (scientificText zDig expn).length < 79 := by
  unfold scientificText
  simp only [length_append, length_map, length_cons, length_nil]
  split_ifs <;> simp <;> omega

theorem fixedText_length (h : zDig.length ≤ 17) (hlow : -4 ≤ expn) (hhigh : expn < 17) :
    (fixedText zDig expn).length < 79 := by
  unfold fixedText
  simp only
  split_ifs <;> simp [ascii] <;> omega

theorem scientificText_doubleText (h : DoubleDigits zDig expn) :
    DoubleText (scientificText zDig expn) := by
  have hn : expn.natAbs ≤ 359 := by
    have := h.low
    have := h.high
    omega
  have hlength := h.length_le
  have hexp : ∀ d ∈ (if 100 ≤ expn.natAbs then
      [expn.natAbs / 100, expn.natAbs / 10 % 10, expn.natAbs % 10]
      else [expn.natAbs / 10, expn.natAbs % 10]), d ≤ 9 := by
    intro d hd
    split_ifs at hd with hbig
    · simp only [mem_cons, not_mem_nil, or_false] at hd
      omega
    · simp only [mem_cons, not_mem_nil, or_false] at hd
      omega
  constructor
  · simp [scientificText]
  · exact (scientificText_length expn hlength).trans (by norm_num)
  · intro c hc
    unfold scientificText at hc
    simp only [mem_append] at hc
    rcases hc with ((hc | hc) | hc) | hc
    · exact map_digitChar_mem (fun d hd => h.le_nine d (mem_of_mem_take hd)) hc
    · split_ifs at hc
      · rcases mem_cons.mp hc with rfl | hc
        · decide
        · exact map_digitChar_mem (fun d hd => h.le_nine d (mem_of_mem_drop hd)) hc
      · exact absurd hc not_mem_nil
    · split_ifs at hc
      · revert c
        decide +kernel
      · revert c
        decide +kernel
    · exact map_digitChar_mem hexp hc

theorem fixedText_doubleText (h : DoubleDigits zDig expn) (hlow : -4 ≤ expn) (hhigh : expn < 17) :
    DoubleText (fixedText zDig expn) := by
  have hlength := h.length_le
  have hzero : ∀ {n : ℕ} {c : Byte}, c ∈ List.replicate n 0x30 → c ∈ doubleChars := by
    intro n c hc
    rw [eq_of_mem_replicate hc]
    decide
  have hpoint : ∀ c ∈ ascii "0.", c ∈ doubleChars := by decide +kernel
  have hpoint' : ∀ c ∈ ascii ".0", c ∈ doubleChars := by decide +kernel
  refine ⟨?_, (fixedText_length hlength hlow hhigh).trans (by norm_num), ?_⟩
  · unfold fixedText
    simp only
    split_ifs <;> simp [ascii]
  intro c hc
  unfold fixedText at hc
  simp only at hc
  split_ifs at hc with hsmall hlarge
  · rcases mem_append.mp hc with hc | hc
    · rcases mem_append.mp hc with hc | hc
      · exact hpoint c hc
      · exact hzero hc
    · exact map_digitChar_mem h.le_nine hc
  · rcases mem_append.mp hc with hc | hc
    · rcases mem_append.mp hc with hc | hc
      · exact map_digitChar_mem h.le_nine hc
      · exact hzero hc
    · exact hpoint' c hc
  · rcases mem_append.mp hc with hc | hc
    · exact map_digitChar_mem (fun d hd => h.le_nine d (mem_of_mem_take hd)) hc
    · rcases mem_cons.mp hc with rfl | hc
      · decide
      · exact map_digitChar_mem (fun d hd => h.le_nine d (mem_of_mem_drop hd)) hc

theorem formatDigits_doubleText (nSig : ℕ) {zDig : List ℕ × ℤ} (h : DoubleDigits zDig.1 zDig.2) :
    DoubleText (formatDigits nSig zDig) ∧ (formatDigits nSig zDig).length < 79 := by
  have hthreshold : (if nSig = 0 then 17 else zDig.1.length) ≤ 17 := by
    have := h.length_le
    split_ifs <;> omega
  unfold formatDigits
  simp only
  generalize (if nSig = 0 then 17 else zDig.1.length) = threshold at *
  by_cases hrange : zDig.2 < -4 ∨ threshold ≤ zDig.2
  · rw [if_pos hrange]
    exact ⟨scientificText_doubleText h.stripZeros, scientificText_length _ h.stripZeros.length_le⟩
  · rw [if_neg hrange]
    exact ⟨fixedText_doubleText h.stripZeros (by omega) (by omega),
      fixedText_length h.stripZeros.length_le (by omega) (by omega)⟩

theorem setResultDouble_doubleText {nSig : ℕ} (hn : nSig ≤ 17) (rVal : ℕ) :
    DoubleText (setResultDouble nSig rVal) := by
  have hsign : ∀ z : Bytes, DoubleText z → z.length < 79 →
      DoubleText ((if rVal >>> 63 = 0 then [] else [0x2d]) ++ z) := by
    intro z h hlength
    by_cases hpos : rVal >>> 63 = 0
    · rw [if_pos hpos]
      exact h
    · rw [if_neg hpos]
      refine ⟨cons_ne_nil _ _, by rw [length_append]; simp; omega, ?_⟩
      intro c hc
      rcases mem_cons.mp hc with rfl | hc
      · decide
      · exact h.mem c hc
  unfold setResultDouble
  simp only
  by_cases hnan : infBits < rVal % 2 ^ 63
  · rw [if_pos hnan]
    exact ⟨by decide, by decide, by decide +kernel⟩
  rw [if_neg hnan]
  by_cases hinf : rVal % 2 ^ 63 = infBits
  · rw [if_pos hinf]
    exact hsign _ ⟨by decide, by decide, by decide +kernel⟩ (by decide)
  rw [if_neg hinf]
  by_cases hzero : rVal % 2 ^ 63 = 0
  · rw [if_pos hzero]
    exact hsign _ ⟨by decide, by decide, by decide +kernel⟩ (by decide)
  rw [if_neg hzero]
  have h := formatDigits_doubleText nSig (chooseDigits_doubleDigits hn
    (Nat.pos_of_ne_zero hzero) (lt_of_le_of_ne (Nat.le_of_not_lt hnan) hinf))
  exact hsign _ h.1 h.2

end Th8
