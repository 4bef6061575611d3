import Th8.Strings.Characters

/-!
# Indices of characters

`th8ParseIndex` subtracts an offset from the last index in `int` arithmetic.  As long as this
does not overflow it returns what the index text denotes.  `string index` and `string range`
walk to a character each in its own way, and arrive at the same one.
-/

namespace Th8

open Support List

namespace Strings

def DenotesNumber (z : Bytes) (v : ℤ) : Prop :=
  (takeSign z).2 ≠ [] ∧ ∃ w, numeral 10 0 (takeSign z).2 = some w ∧ signed (takeSign z).1 w = v

/-- An index among `nCount` elements: a number, the last one, or one at a distance from the
last one. -/
inductive DenotesIndex (nCount : ℤ) : Bytes → ℤ → Prop where
  | number {z v} : DenotesNumber z v → DenotesIndex nCount z v
  | last : DenotesIndex nCount (ascii "end") (nCount - 1)
  | before {z v} : DenotesNumber z v → DenotesIndex nCount (ascii "end-" ++ z) (nCount - 1 - v)
  | after {z v} : DenotesNumber z v → DenotesIndex nCount (ascii "end+" ++ z) (nCount - 1 + v)

/-- No offset that an `int` can hold leads past the largest `int`. -/
def OffsetFits (z : Bytes) (nCount : ℤ) : Prop :=
  ∀ zOffset v, z = ascii "end-" ++ zOffset → DenotesNumber zOffset v → -intMax ≤ v →
    nCount - 1 - v ≤ intMax

section Texts

variable {z : Bytes} {v nCount : ℤ} {a : Arg}

theorem DenotesNumber.unique {v' : ℤ} (h : DenotesNumber z v) (h' : DenotesNumber z v') :
    v = v' := by
  obtain ⟨_, w, hw, rfl⟩ := h
  obtain ⟨_, w', hw', rfl⟩ := h'
  rw [hw] at hw'
  rw [Option.some.inj hw']

theorem DenotesNumber.ne_nil (h : DenotesNumber z v) : z ≠ [] := by
  rintro rfl
  exact h.1 rfl

theorem mapError_eq_ok {ε ε' α : Type} {x : Except ε α} {f : ε → ε'} {b : α} :
    x.mapError f = .ok b ↔ x = .ok b := by
  cases x <;> simp [Except.mapError]

theorem parseInt_eq_ok_iff_denotes :
    parseInt z = .ok v ↔ DenotesNumber z v ∧ -intMax ≤ v ∧ v ≤ intMax := by
  rw [parseInt_eq_ok_iff]
  constructor
  · rintro ⟨hdigits, w, hle, hw, rfl⟩
    refine ⟨⟨hdigits, w, hw, rfl⟩, ?_⟩
    cases (takeSign z).1 <;> simp [signed] <;> omega
  · rintro ⟨⟨hdigits, w, hw, rfl⟩, hlo, hhi⟩
    refine ⟨hdigits, w, ?_, hw, rfl⟩
    cases hneg : (takeSign z).1 <;> simp [signed, hneg] at hlo hhi <;> omega

theorem not_denotesNumber_end (rest : Bytes) : ¬DenotesNumber (ascii "end" ++ rest) v := by
  rintro ⟨_, w, hw, _⟩
  cases hw

theorem denotesIndex_before_iff {i : ℤ} :
    DenotesIndex nCount (ascii "end-" ++ z) i ↔ ∃ v, DenotesNumber z v ∧ nCount - 1 - v = i := by
  constructor
  · intro h
    generalize hz : ascii "end-" ++ z = zIndex at h
    cases h with
    | number h => exact absurd (hz ▸ h) (not_denotesNumber_end (0x2d :: z))
    | last => cases hz
    | before h => exact ⟨_, append_cancel_left hz ▸ h, rfl⟩
    | after h => cases hz
  · rintro ⟨v, h, rfl⟩
    exact .before h

theorem memcmp_eq_zero_iff {x y : Bytes} (h : x.length = y.length) : memcmp x y = 0 ↔ x = y := by
  induction x generalizing y with
  | nil => simp [memcmp, length_eq_zero_iff.mp h.symm]
  | cons a x ih =>
    cases y with
    | nil => cases h
    | cons b y =>
      rw [memcmp]
      split_ifs with hab hlt
      · simp [hab, ih (Nat.succ.inj h)]
      · simp [hab]
      · simp [hab]

theorem strEq_eq (zLit : String) : strEq a zLit = .ok (decide (a.bytes = ascii zLit)) := by
  rw [strEq, lenOf_word]
  split_ifs with hlen
  · have htake : (ascii zLit).take a.bytes.length = ascii zLit := by
      rw [hlen, take_length]
    simp [memcmpAt, readBytes, ← hlen, htake, memcmp_eq_zero_iff hlen, Bool.beq_eq_decide_eq]
  · have hne : a.bytes ≠ ascii zLit := fun h => hlen (congrArg _ h)
    simp [hne]

theorem toInt_drop {i n : ℕ} (hn : n < 2 ^ 28) (h : i + n = z.length) :
    toInt z i n = (parseInt (z.drop i)).mapError .failure := by
  have htake : (z.drop i).take n = z.drop i := take_of_length_le (by simp; omega)
  rw [toInt, lenOf, Nat.mod_eq_of_lt hn, readBytes, if_pos h.le, ok_bind, htake]

theorem parseIndex_end (h : a.bytes = ascii "end") : parseIndex a nCount = .ok (nCount - 1) := by
  rw [parseIndex, strEq_eq, decide_eq_true h]
  rfl

theorem parseIndex_before {zOffset : Bytes} (h : a.bytes = ascii "end-" ++ zOffset)
    (hne : zOffset ≠ []) :
    parseIndex a nCount =
      ((parseInt zOffset).mapError .failure).map fun v => wrapInt (nCount - 1 - v) := by
  have hend : a.bytes ≠ ascii "end" := by
    rw [h]
    exact nofun
  have hlen : a.bytes.length = 4 + zOffset.length := by
    rw [h, length_append]
    rfl
  have hpos := length_pos_iff.mpr hne
  have hread : memcmpAt a.bytes 0 (ascii "end-") 0 4 = .ok 0 := by
    rw [memcmpAt, readBytes, if_pos (by omega), h]
    rfl
  have hdrop : a.bytes.drop 4 = zOffset := by
    rw [h]
    rfl
  have htoInt := toInt_drop (z := a.bytes) (i := 4) (n := a.bytes.length - 4)
    (Nat.lt_of_le_of_lt (Nat.sub_le _ _) a.length_lt) (by omega)
  rw [parseIndex, strEq_eq, decide_eq_false hend, lenOf_word, hread, htoInt, hdrop]
  rcases parseInt zOffset <;> simp [hlen, hpos] <;> rfl

theorem parseIndex_number (hend : a.bytes ≠ ascii "end")
    (hbefore : ∀ zOffset ≠ [], a.bytes ≠ ascii "end-" ++ zOffset) :
    parseIndex a nCount = (parseInt a.bytes).mapError .failure := by
  have htoInt : toInt a.bytes 0 a.word = (parseInt a.bytes).mapError .failure := by
    rw [toInt, lenOf_word, readBytes, if_pos (by omega), ok_bind, drop_zero, take_length]
  rw [parseIndex, strEq_eq, decide_eq_false hend, lenOf_word, htoInt]
  by_cases hlen : 4 < a.bytes.length
  · have htake : a.bytes.take 4 ≠ ascii "end-" := by
      intro h
      refine hbefore (a.bytes.drop 4) (by simpa using hlen) ?_
      rw [← h, take_append_drop]
    have hread : memcmpAt a.bytes 0 (ascii "end-") 0 4 =
        .ok (memcmp (a.bytes.take 4) (ascii "end-")) := by
      rw [memcmpAt, readBytes, if_pos (by omega)]
      rfl
    have hne : memcmp (a.bytes.take 4) (ascii "end-") ≠ 0 :=
      fun h => htake ((memcmp_eq_zero_iff (by rw [length_take_of_le hlen.le]; rfl)).mp h)
    simp [hlen, hread, hne]
  · simp [hlen]

theorem parseIndex_exact_iff (h0 : 0 ≤ nCount) (hmax : nCount ≤ intMax) :
    (∀ i, parseIndex a nCount = .ok i → DenotesIndex nCount a.bytes i) ↔
      OffsetFits a.bytes nCount := by
  have hint : (intMax : ℤ) = 2147483647 := by decide
  constructor
  · intro h zOffset v hz hv hlo
    by_contra hbig
    have hparse := parseInt_eq_ok_iff_denotes.mpr ⟨hv, hlo, by omega⟩
    have hi : parseIndex a nCount = _ := parseIndex_before hz hv.ne_nil
    rw [hparse] at hi
    have hdenotes := h _ hi
    rw [hz, denotesIndex_before_iff] at hdenotes
    obtain ⟨v', hv', heq⟩ := hdenotes
    rw [hv'.unique hv] at heq
    have hwrap : wrapInt (nCount - 1 - v) < 2 ^ 31 := Int.bmod_lt (by norm_num)
    simp only at heq
    omega
  · intro hfits i hi
    by_cases hend : a.bytes = ascii "end"
    · rw [parseIndex_end hend] at hi
      rw [hend, ← Except.ok.inj hi]
      exact .last
    by_cases hbefore : ∃ zOffset ≠ [], a.bytes = ascii "end-" ++ zOffset
    · obtain ⟨zOffset, hne, hz⟩ := hbefore
      rw [parseIndex_before hz hne] at hi
      obtain ⟨v, hv, rfl⟩ := map_eq_ok.mp hi
      obtain ⟨hv, hlo, hhi⟩ := parseInt_eq_ok_iff_denotes.mp (mapError_eq_ok.mp hv)
      have hfit := hfits zOffset v hz hv hlo
      have hwrap : wrapInt (nCount - 1 - v) = nCount - 1 - v :=
        Int.bmod_eq_of_le_mul_two (by push_cast; omega) (by push_cast; omega)
      rw [hz, hwrap]
      exact .before hv
    · push Not at hbefore
      rw [parseIndex_number hend hbefore] at hi
      exact .number (parseInt_eq_ok_iff_denotes.mp (mapError_eq_ok.mp hi)).1

end Texts

section Walks

variable {z : Bytes}

variable {i : ℕ}

theorem utf8Decode_width (hi : i < z.length) :
    ∃ v w, utf8Decode z i (z.length - i) = .ok (v, w) ∧ 1 ≤ w ∧ i + w ≤ z.length := by
  have hread (k : ℕ) (hk : i + k < z.length) : readByte z (i + k) = .ok z[i + k] := by
    rw [readByte, getElem?_eq_getElem hk]
  have hfirst : readByte z i = .ok z[i] := hread 0 hi
  rw [utf8Decode, hfirst]
  simp only [ok_bind]
  split_ifs with h1 h2 h3 h4
  · exact ⟨_, _, rfl, le_rfl, hi⟩
  · rw [hread 1 (by omega)]
    exact ⟨_, _, rfl, by decide, by omega⟩
  · rw [hread 1 (by omega), hread 2 (by omega)]
    exact ⟨_, _, rfl, by decide, by omega⟩
  · rw [hread 1 (by omega), hread 2 (by omega), hread 3 (by omega)]
    exact ⟨_, _, rfl, by decide, by omega⟩
  · exact ⟨_, _, rfl, le_rfl, hi⟩

theorem utf8AdvanceFrom_spec (k : ℕ) (hi : i ≤ z.length) :
    ∃ p ≤ z.length, ∀ m, utf8AdvanceFrom z z.length (k + m) i = utf8AdvanceFrom z z.length m p := by
  induction k generalizing i with
  | zero => exact ⟨i, hi, fun m => by rw [Nat.zero_add]⟩
  | succ k ih =>
    rcases Nat.lt_or_ge i z.length with hlt | hge
    · obtain ⟨v, w, hdecode, -, hw⟩ := utf8Decode_width hlt
      obtain ⟨p, hp, hrest⟩ := ih hw
      refine ⟨p, hp, fun m => ?_⟩
      rw [Nat.succ_add, utf8AdvanceFrom, if_pos hlt, hdecode]
      exact hrest m
    · refine ⟨i, hi, fun m => ?_⟩
      have hstay (m : ℕ) : utf8AdvanceFrom z z.length m i = .ok i := by
        cases m with
        | zero => rfl
        | succ m => rw [utf8AdvanceFrom, if_neg hge.not_gt]; rfl
      rw [hstay, hstay]

theorem utf8LenFrom_spec {fuel : ℕ} (hi : i ≤ z.length) (hfuel : z.length - i ≤ fuel) :
    ∃ nChars, utf8LenFrom z z.length fuel i = .ok nChars ∧
      ∀ k < nChars, ∀ p, utf8AdvanceFrom z z.length k i = .ok p → p < z.length := by
  induction fuel generalizing i with
  | zero => exact ⟨0, rfl, by simp⟩
  | succ fuel ih =>
    rw [utf8LenFrom]
    split_ifs with hlt
    · obtain ⟨v, w, hdecode, hpos, hw⟩ := utf8Decode_width hlt
      obtain ⟨nChars, hcount, hinside⟩ := ih hw (by omega)
      refine ⟨nChars + 1, by simp [hdecode, hcount], fun k hk p hp => ?_⟩
      cases k with
      | zero => exact Except.ok.inj hp ▸ hlt
      | succ k =>
        rw [utf8AdvanceFrom, if_pos hlt, hdecode] at hp
        exact hinside k (by omega) p hp
    · exact ⟨0, rfl, by simp⟩

theorem setResult_tags {n : ℕ} (hn : n < 2 ^ 28) (t : Tags) :
    (setResult z (n + tagBits t)).ops = (setResult z n).ops ∧
      (setResult z (n + tagBits t)).result.map TString.bytes =
        (setResult z n).result.map TString.bytes := by
  have hlen : lenOf n = n := Nat.mod_eq_of_lt hn
  rw [setResult, setResult, lenOf_add_tagBits hn, hlen]
  rcases halloc : (allocate (n + 1)).result with e | u
  · rw [Traced.bind_of_error halloc, Traced.bind_of_error halloc]
    exact ⟨rfl, rfl⟩
  · rw [Traced.bind_of_ok halloc, Traced.bind_of_ok halloc]
    rcases hread : readBytes z 0 n with e | z' <;> exact ⟨rfl, rfl⟩

end Walks

theorem lift_ok_bind {Op ε α β : Type} (a : α) (f : α → Traced Op ε β) :
    Traced.lift (.ok a) >>= f = f a := rfl

theorem stringIndex_eq_stringRange (c w c' w' s index : Arg) :
    (stringIndex [c, w, s, index]).ops = (stringRange [c', w', s, index, index]).ops ∧
      (stringIndex [c, w, s, index]).result.map TString.bytes =
        (stringRange [c', w', s, index, index]).result.map TString.bytes := by
  obtain ⟨nChars, hcount, hinside⟩ :=
    utf8LenFrom_spec (z := s.bytes) (i := 0) (Nat.zero_le _) (Nat.sub_zero _).le
  have hlen : utf8Len s.bytes s.bytes.length = .ok nChars := by
    rw [utf8Len, lenOf, Nat.mod_eq_of_lt s.length_lt, hcount]
  simp only [stringIndex, stringRange, lenOf_word, tagsOf_word, hlen, lift_ok_bind]
  rcases hparse : parseIndex index nChars with e | i
  · exact ⟨rfl, rfl⟩
  simp only [lift_ok_bind]
  by_cases hi : i < 0 ∨ (nChars : ℤ) ≤ i
  · rw [if_pos hi, if_pos (by omega)]
    exact ⟨rfl, rfl⟩
  rw [if_neg hi, if_neg (by omega)]
  push Not at hi
  obtain ⟨k, rfl⟩ := Int.eq_ofNat_of_zero_le hi.1
  obtain ⟨p, hp, hsteps⟩ := utf8AdvanceFrom_spec k (Nat.zero_le s.bytes.length)
  have hk : utf8AdvanceFrom s.bytes s.bytes.length k 0 = .ok p := hsteps 0
  have hpos : p < s.bytes.length := hinside k (by omega) p hk
  obtain ⟨v, width, hdecode, -, hwidth⟩ := utf8Decode_width hpos
  have hk1 : utf8AdvanceFrom s.bytes s.bytes.length (k + 1) 0 = .ok (p + width) := by
    rw [hsteps 1, utf8AdvanceFrom, if_pos hpos, hdecode]
    rfl
  have hstart : utf8Index s.bytes s.bytes.length k = .ok (some p) := by
    rw [utf8Index, if_neg (by omega), utf8Advance, Int.toNat_natCast, hk, ok_bind, if_neg hp.not_gt]
    rfl
  have hend : utf8Index s.bytes s.bytes.length (k + 1) = .ok (some (p + width)) := by
    rw [utf8Index, if_neg (by omega), utf8Advance, Int.toNat_natCast_add_one, hk1, ok_bind,
      if_neg hwidth.not_gt]
    rfl
  rw [max_eq_left hi.1, min_eq_left (by omega), hstart, hend]
  simp only [lift_ok_bind, hdecode, Option.getD_some, Nat.add_sub_cancel_left]
  have hlt : width < 2 ^ 28 := by
    have := s.length_lt
    omega
  have htags := setResult_tags (z := s.bytes.drop p) hlt s.tags
  exact ⟨htags.1.symm, htags.2.symm⟩

/-- `th8ParseIndex` is exact unless its subtraction overflows. -/
theorem parseIndex_exact_and_consumers_agree (index : Arg) (nCount : ℤ) (h0 : 0 ≤ nCount)
    (hmax : nCount ≤ intMax) :
    ((∀ i, parseIndex index nCount = .ok i → DenotesIndex nCount index.bytes i) ↔
        OffsetFits index.bytes nCount) ∧
      ∀ c w c' w' s : Arg,
        (stringIndex [c, w, s, index]).ops = (stringRange [c', w', s, index, index]).ops ∧
          (stringIndex [c, w, s, index]).result.map TString.bytes =
            (stringRange [c', w', s, index, index]).result.map TString.bytes :=
  ⟨parseIndex_exact_iff h0 hmax, fun c w c' w' s => stringIndex_eq_stringRange c w c' w' s index⟩

/-- `end-1`. -/
def nextToLast : Arg := ⟨ascii "end-1", .clean, by decide⟩

theorem parseIndex_exact_nextToLast :
    (∀ i, parseIndex nextToLast 3 = .ok i → DenotesIndex 3 nextToLast.bytes i) ↔
      OffsetFits nextToLast.bytes 3 :=
  (parseIndex_exact_and_consumers_agree nextToLast 3 (by decide) (by decide)).1

/-- `end--2147483647`. -/
def farAfterEnd : Arg := ⟨ascii "end--2147483647", .clean, by decide⟩

/-- Of two characters, the index is taken for one before the first. -/
theorem parseIndex_overflow :
    parseIndex farAfterEnd 2 = .ok (-2147483648) ∧
      ¬DenotesIndex 2 farAfterEnd.bytes (-2147483648) := by
  refine ⟨by decide, fun h => ?_⟩
  obtain ⟨v, hv, heq⟩ := denotesIndex_before_iff (z := ascii "-2147483647").mp h
  have hoffset : DenotesNumber (ascii "-2147483647") (-2147483647) :=
    ⟨by decide, 2147483647, by decide, by decide⟩
  have := hv.unique hoffset
  omega

end Strings

end Th8
