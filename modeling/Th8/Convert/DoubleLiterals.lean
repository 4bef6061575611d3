import Mathlib
import Th8.Convert.Double

/-!
# The numbers that `Th8_ToDouble` reads

A number is a decimal literal with an optional fraction and exponent, or one of three
words in letters of any case.  The conversion reads them all.  It also reads what agrees
with the longest word in four letters and in length.
-/

namespace Th8

open Support List

inductive ExponentText : Bytes → Prop where
  | none : ExponentText []
  | some {e : Byte} {z digits : Bytes} {neg : Bool} (he : e = 0x65 ∨ e = 0x45)
      (hz : SignedText z neg digits) (hne : digits ≠ [])
      (hdigits : ∀ c ∈ digits, isDecimal c = true) : ExponentText (e :: z)

/-- A decimal literal: digits with an optional point among them, and an exponent. -/
inductive FloatLiteral : Bytes → Prop where
  | whole {zInt zExp : Bytes} (hne : zInt ≠ []) (hint : ∀ c ∈ zInt, isDecimal c = true)
      (hexp : ExponentText zExp) : FloatLiteral (zInt ++ zExp)
  | point {zInt zFrac zExp : Bytes} (hne : ¬(zInt = [] ∧ zFrac = []))
      (hint : ∀ c ∈ zInt, isDecimal c = true) (hfrac : ∀ c ∈ zFrac, isDecimal c = true)
      (hexp : ExponentText zExp) : FloatLiteral (zInt ++ 0x2e :: (zFrac ++ zExp))

def Spells (z : Bytes) (word : String) : Prop :=
  z.map (fun c => (Char.ofNat c.toNat).toLower) = word.toList

instance (z : Bytes) (word : String) : Decidable (Spells z word) :=
  inferInstanceAs (Decidable (_ = _))

def IsDouble (z : Bytes) : Prop :=
  ∃ neg body, SignedText z neg body ∧
    (FloatLiteral body ∨ Spells body "nan" ∨ Spells body "inf" ∨ Spells body "infinity")

/-- Eight bytes that begin as the word `Infinity` does and go on in another way. -/
def MisspeltInfinity (z : Bytes) : Prop :=
  ∃ neg body, SignedText z neg body ∧ body.length = 8 ∧ Spells (body.take 4) "infi" ∧
    ¬Spells (body.drop 4) "nity"

/-! ## Literals -/

section Digits

variable {p : Byte → Bool} {l z : Bytes}

theorem takeWhile_of_all (hl : ∀ c ∈ l, p c = true) (hz : ∀ c rest, z = c :: rest → p c = false) :
    (l ++ z).takeWhile p = l ∧ (l ++ z).dropWhile p = z := by
  rw [takeWhile_append_of_pos hl, dropWhile_append_of_pos hl]
  cases z with
  | nil => simp
  | cons c rest => simp [hz c rest rfl]

end Digits

theorem ExponentText.head {z : Bytes} (h : ExponentText z) :
    ∀ c rest, z = c :: rest → isDecimal c = false ∧ c ≠ 0x2e := by
  rintro c rest rfl
  cases h with
  | some he =>
    rcases he with rfl | rfl
    · exact ⟨by decide, by decide⟩
    · exact ⟨by decide, by decide⟩

theorem ne_sign_of_decimal {c : Byte} (h : isDecimal c = true) : c ≠ 0x2d ∧ c ≠ 0x2b := by
  constructor
  · rintro rfl
    cases h
  · rintro rfl
    cases h

theorem takeExponent_all_iff {z : Bytes} :
    (∃ exp, takeExponent z = some (exp, [])) ↔ ExponentText z := by
  constructor
  · rintro ⟨exp, h⟩
    match z with
    | [] => exact .none
    | c :: rest =>
      rw [takeExponent] at h
      by_cases he : c = 0x65 ∨ c = 0x45
      · rw [if_pos he] at h
        by_cases hdigits : (takeSign rest).2.takeWhile isDecimal = []
        · rw [if_pos hdigits] at h
          cases h
        · rw [if_neg hdigits, Option.some.injEq, Prod.mk.injEq] at h
          have hall := dropWhile_eq_nil_iff.mp h.2
          rw [takeWhile_eq_self_iff.mpr hall] at hdigits
          exact .some he (signedText_takeSign rest) hdigits hall
      · rw [if_neg he] at h
        cases h
  · intro h
    cases h with
    | none => exact ⟨0, rfl⟩
    | @some e z digits neg he hz hne hdigits =>
      have hsign : takeSign z = (neg, digits) := hz.takeSign_eq fun c rest heq =>
        ne_sign_of_decimal (hdigits c (by rw [heq]; exact mem_cons_self))
      refine ⟨signed neg (expValue digits), ?_⟩
      rw [takeExponent, if_pos he, hsign]
      simp only [takeWhile_eq_self_iff.mpr hdigits, dropWhile_eq_nil_iff.mpr hdigits, if_neg hne]

theorem takeFraction_point (z : Bytes) :
    takeFraction (0x2e :: z) = (z.takeWhile isDecimal, z.dropWhile isDecimal) := rfl

theorem takeFraction_plain {z : Bytes} (h : ∀ c rest, z = c :: rest → c ≠ 0x2e) :
    takeFraction z = ([], z) := by
  unfold takeFraction
  split
  · exact absurd rfl (h _ _ rfl)
  · rfl

theorem parseDecimal_isOk_iff {bigint : Bool} {expected : Failure} {body : Bytes} :
    (∃ u, parseDecimal bigint expected body = .ok u) ↔
      ¬(body.takeWhile isDecimal = [] ∧ (takeFraction (body.dropWhile isDecimal)).1 = []) ∧
      ExponentText (takeFraction (body.dropWhile isDecimal)).2 := by
  unfold parseDecimal
  obtain ⟨zFrac, tail⟩ := takeFraction (body.dropWhile isDecimal)
  simp only
  by_cases hdigits : body.takeWhile isDecimal = [] ∧ zFrac = []
  · rw [if_pos hdigits]
    simp [hdigits]
  · rw [if_neg hdigits, ← takeExponent_all_iff]
    simp only [hdigits, not_false_eq_true, true_and]
    rcases takeExponent tail with _ | ⟨exp, rest⟩
    · simp
    · by_cases hrest : rest = []
      · simp [hrest]
      · simp [hrest]

theorem floatLiteral_iff {body : Bytes} :
    FloatLiteral body ↔
      ¬(body.takeWhile isDecimal = [] ∧ (takeFraction (body.dropWhile isDecimal)).1 = []) ∧
      ExponentText (takeFraction (body.dropWhile isDecimal)).2 := by
  constructor
  · intro h
    cases h with
    | whole hne hint hexp =>
      obtain ⟨htake, hdrop⟩ := takeWhile_of_all hint fun c rest heq => (hexp.head c rest heq).1
      rw [htake, hdrop, takeFraction_plain fun c rest heq => (hexp.head c rest heq).2]
      exact ⟨fun h => hne h.1, hexp⟩
    | point hne hint hfrac hexp =>
      obtain ⟨htake, hdrop⟩ := takeWhile_of_all hint (z := 0x2e :: (_ ++ _)) fun c rest heq => by
          cases heq
          rfl
      obtain ⟨htake', hdrop'⟩ := takeWhile_of_all hfrac fun c rest heq => (hexp.head c rest heq).1
      rw [htake, hdrop, takeFraction_point, htake', hdrop']
      exact ⟨hne, hexp⟩
  · rintro ⟨hne, hexp⟩
    have hsplit := takeWhile_append_dropWhile (p := isDecimal) (l := body)
    have hint : ∀ c ∈ body.takeWhile isDecimal, isDecimal c = true :=
      fun c hc => mem_takeWhile_imp hc
    by_cases hpoint : ∃ z, body.dropWhile isDecimal = 0x2e :: z
    · obtain ⟨z, hz⟩ := hpoint
      rw [hz, takeFraction_point] at hne hexp
      have hfrac : ∀ c ∈ z.takeWhile isDecimal, isDecimal c = true :=
        fun c hc => mem_takeWhile_imp hc
      have hliteral := FloatLiteral.point hne hint hfrac hexp
      rwa [takeWhile_append_dropWhile, ← hz, hsplit] at hliteral
    · push Not at hpoint
      rw [takeFraction_plain fun c rest heq hc => hpoint rest (hc ▸ heq)] at hne hexp
      have hliteral := FloatLiteral.whole (fun hnil => hne ⟨hnil, rfl⟩) hint hexp
      rwa [hsplit] at hliteral

theorem parseDecimal_isOk {bigint : Bool} {expected : Failure} {body : Bytes} :
    (∃ u, parseDecimal bigint expected body = .ok u) ↔ FloatLiteral body := by
  rw [parseDecimal_isOk_iff, floatLiteral_iff]

theorem FloatLiteral.head {body : Bytes} (h : FloatLiteral body) :
    ∃ c rest, body = c :: rest ∧ (isDecimal c = true ∨ c = 0x2e) := by
  cases h with
  | @whole zInt zExp hne hint _ =>
    obtain ⟨c, rest, rfl⟩ := exists_cons_of_ne_nil hne
    exact ⟨c, rest ++ zExp, rfl, .inl (hint c mem_cons_self)⟩
  | @point zInt zFrac zExp _ hint _ _ =>
    cases zInt with
    | nil => exact ⟨0x2e, _, rfl, .inr rfl⟩
    | cons c rest => exact ⟨c, _, rfl, .inl (hint c mem_cons_self)⟩

/-! ## Words -/

theorem toLower_eq_iff_of_forall {c l : Byte}
    (hall : ∀ m < 256, (Char.ofNat (UInt8.ofNat m).toNat).toLower = Char.ofNat l.toNat ↔
      UInt8.ofNat m = l - 0x20 ∨ UInt8.ofNat m = l) :
    (Char.ofNat c.toNat).toLower = Char.ofNat l.toNat ↔ c = l - 0x20 ∨ c = l := by
  simpa using hall c.toNat c.toNat_lt

section Letters

variable (c : Byte)

theorem toLower_a : (Char.ofNat c.toNat).toLower = 'a' ↔ c = 0x41 ∨ c = 0x61 :=
  toLower_eq_iff_of_forall (l := 0x61) (by decide +kernel)

theorem toLower_f : (Char.ofNat c.toNat).toLower = 'f' ↔ c = 0x46 ∨ c = 0x66 :=
  toLower_eq_iff_of_forall (l := 0x66) (by decide +kernel)

theorem toLower_i : (Char.ofNat c.toNat).toLower = 'i' ↔ c = 0x49 ∨ c = 0x69 :=
  toLower_eq_iff_of_forall (l := 0x69) (by decide +kernel)

theorem toLower_n : (Char.ofNat c.toNat).toLower = 'n' ↔ c = 0x4e ∨ c = 0x6e :=
  toLower_eq_iff_of_forall (l := 0x6e) (by decide +kernel)

end Letters

theorem isNanWord_iff {z : Bytes} : isNanWord z = true ↔ Spells z "nan" := by
  match z with
  | [] => decide
  | [a] => simp [isNanWord, Spells]
  | [a, b] => simp [isNanWord, Spells]
  | [a, b, c] =>
    simp only [isNanWord, Spells, Bool.and_eq_true, Bool.or_eq_true, beq_iff_eq,
      map_cons, map_nil, show "nan".toList = ['n', 'a', 'n'] from rfl,
      List.cons.injEq, and_true, toLower_n, toLower_a]
    tauto
  | a :: b :: c :: d :: rest => simp [isNanWord, Spells]

theorem isInfWord_length {z : Bytes} (h : isInfWord z = true) : z.length = 3 ∨ z.length = 8 := by
  unfold isInfWord at h
  split at h
  · split at h
    · exact .inl rfl
    · exact .inr rfl
    · simp at h
  · cases h

theorem Spells.length_eq {z : Bytes} {word : String} (h : Spells z word) :
    z.length = word.toList.length := by
  rw [← congrArg List.length h, length_map]

theorem exists_of_length_eight {z : Bytes} (h : z.length = 8) :
    ∃ a b c d e₁ e₂ e₃ e₄, z = [a, b, c, d, e₁, e₂, e₃, e₄] := by
  obtain ⟨a, z, rfl⟩ := exists_of_length_succ z h
  obtain ⟨b, z, rfl⟩ := exists_of_length_succ z (Nat.succ.inj h)
  obtain ⟨c, z, rfl⟩ := exists_of_length_succ z (Nat.succ.inj (Nat.succ.inj h))
  obtain ⟨d, z, rfl⟩ := exists_of_length_succ z (Nat.succ.inj (Nat.succ.inj (Nat.succ.inj h)))
  have hlast : z.length = 4 := by simpa using h
  obtain ⟨e₁, z, rfl⟩ := exists_of_length_succ z hlast
  obtain ⟨e₂, e₃, e₄, rfl⟩ := length_eq_three.mp (Nat.succ.inj hlast)
  exact ⟨a, b, c, d, e₁, e₂, e₃, e₄, rfl⟩

theorem isInfWord_iff {z : Bytes} :
    isInfWord z = true ↔ Spells z "inf" ∨ z.length = 8 ∧ Spells (z.take 4) "infi" := by
  by_cases hthree : z.length = 3
  · obtain ⟨a, b, c, rfl⟩ := length_eq_three.mp hthree
    simp only [isInfWord, Spells, Bool.and_eq_true, Bool.or_eq_true, beq_iff_eq,
      map_cons, map_nil, show "inf".toList = ['i', 'n', 'f'] from rfl,
      List.cons.injEq, and_true, toLower_n, toLower_i, toLower_f, length_cons,
      length_nil, Nat.reduceAdd, Nat.reduceEqDiff, false_and, or_false]
    tauto
  by_cases height : z.length = 8
  · obtain ⟨a, b, c, d, e₁, e₂, e₃, e₄, rfl⟩ := exists_of_length_eight height
    simp only [isInfWord, Spells, Bool.and_eq_true, Bool.or_eq_true, beq_iff_eq,
      map_cons, map_nil, show "inf".toList = ['i', 'n', 'f'] from rfl,
      show "infi".toList = ['i', 'n', 'f', 'i'] from rfl, take_succ_cons,
      take_zero, List.cons.injEq, and_true, toLower_n, toLower_i, toLower_f,
      length_cons, length_nil, Nat.reduceAdd, true_and, reduceCtorEq,
      and_false, false_or]
    tauto
  · apply iff_of_false
    · exact fun h => (isInfWord_length h).elim hthree height
    · exact fun h => h.elim (fun hinf => hthree hinf.length_eq) fun hlong => height hlong.1

theorem spells_infinity_iff {z : Bytes} :
    Spells z "infinity" ↔
      z.length = 8 ∧ Spells (z.take 4) "infi" ∧ Spells (z.drop 4) "nity" := by
  have hword : "infinity".toList = "infi".toList ++ "nity".toList := by decide
  constructor
  · intro h
    have hlen : z.length = 8 := h.length_eq
    rw [Spells, ← take_append_drop 4 z, map_append, hword] at h
    have hfirst : ((z.take 4).map fun c => (Char.ofNat c.toNat).toLower).length =
        "infi".toList.length := by
      rw [length_map, length_take, hlen]
      rfl
    exact ⟨hlen, append_inj h hfirst⟩
  · rintro ⟨-, hfirst, hlast⟩
    rw [Spells, ← take_append_drop 4 z, map_append, hfirst, hlast, hword]

theorem parseDouble_isOk_iff {bigint : Bool} {z : Bytes} :
    (∃ r, parseDouble bigint z = .ok r) ↔
      FloatLiteral (takeSign z).2 ∨ isNanWord (takeSign z).2 = true ∨
        isInfWord (takeSign z).2 = true := by
  unfold parseDouble
  obtain ⟨neg, body⟩ := takeSign z
  simp only
  by_cases hnan : isNanWord body = true
  · simp [hnan]
  by_cases hinf : isInfWord body = true
  · simp [hnan, hinf]
  · simp only [hnan, hinf, if_false, Bool.false_eq_true, or_false]
    rw [← @parseDecimal_isOk bigint (.message _ z)]
    cases parseDecimal bigint (.message "expected number, got: \"" z) body with
    | error e => simp [Except.map]
    | ok u => simp [Except.map]

theorem DoubleCache.Readable.toDouble_isOk_iff {cache : DoubleCache} (h : cache.Readable)
    (bigint : Bool) (z : Bytes) :
    (∃ u, cache.toDouble bigint z = .ok u) ↔ ∃ r, parseDouble bigint z = .ok r := by
  unfold DoubleCache.toDouble
  cases hz : cache z with
  | some v =>
    obtain ⟨bigint', hr⟩ := h z v hz
    rw [parseDouble_isOk_iff] at hr ⊢
    exact iff_of_true ⟨v, rfl⟩ hr
  | none =>
    cases parseDouble bigint z with
    | error e => simp [Except.map]
    | ok r => simp [Except.map]

/-! ### The sign in front of a number -/

theorem plain_of_letter {c : Byte}
    (h : (Char.ofNat c.toNat).toLower = 'n' ∨ (Char.ofNat c.toNat).toLower = 'i') :
    (c ≠ 0x2d ∧ c ≠ 0x2b) ∧ isDecimal c = false ∧ c ≠ 0x2e := by
  rw [toLower_n, toLower_i] at h
  rcases h with (rfl | rfl) | rfl | rfl <;> decide

theorem Spells.head_letter {z : Bytes} {word : String} (h : Spells z word) {l : Char}
    {ls : List Char} (hword : word.toList = l :: ls) :
    ∃ c rest, z = c :: rest ∧ (Char.ofNat c.toNat).toLower = l := by
  rw [Spells, hword, map_eq_cons_iff] at h
  obtain ⟨c, rest, rfl, hc, -⟩ := h
  exact ⟨c, rest, rfl, hc⟩

theorem body_not_sign {body : Bytes}
    (h : FloatLiteral body ∨ Spells body "nan" ∨ Spells body "inf" ∨ Spells body "infinity" ∨
      Spells (body.take 4) "infi") :
    ∀ c rest, body = c :: rest → c ≠ 0x2d ∧ c ≠ 0x2b := by
  rintro c rest rfl
  have hletter : ∀ {word : String} {l : Char} {ls : List Char} {z : Bytes},
      Spells (c :: z) word → word.toList = l :: ls → l = 'n' ∨ l = 'i' → c ≠ 0x2d ∧ c ≠ 0x2b := by
    intro word l ls z hspell hword hl
    obtain ⟨c', rest', heq, hc⟩ := hspell.head_letter hword
    cases heq
    exact (plain_of_letter (hc ▸ hl)).1
  rcases h with hlit | hnan | hinf | hlong | hinfi
  · obtain ⟨c', rest', heq, hc⟩ := hlit.head
    cases heq
    rcases hc with hc | rfl
    · exact ne_sign_of_decimal hc
    · exact ⟨by decide, by decide⟩
  · exact hletter hnan rfl (.inl rfl)
  · exact hletter hinf rfl (.inr rfl)
  · exact hletter hlong rfl (.inr rfl)
  · exact hletter (z := rest.take 3) hinfi rfl (.inr rfl)

theorem isDouble_iff {z : Bytes} :
    IsDouble z ↔ FloatLiteral (takeSign z).2 ∨ Spells (takeSign z).2 "nan" ∨
      Spells (takeSign z).2 "inf" ∨ Spells (takeSign z).2 "infinity" := by
  constructor
  · rintro ⟨neg, body, hz, h⟩
    have hsign := @body_not_sign body (by tauto)
    rwa [hz.takeSign_eq hsign]
  · exact fun h => ⟨_, _, signedText_takeSign z, h⟩

theorem misspeltInfinity_iff {z : Bytes} :
    MisspeltInfinity z ↔ (takeSign z).2.length = 8 ∧
      Spells ((takeSign z).2.take 4) "infi" ∧ ¬Spells ((takeSign z).2.drop 4) "nity" := by
  constructor
  · rintro ⟨neg, body, hz, hlen, hinfi, hnity⟩
    have hsign := @body_not_sign body (by tauto)
    rw [hz.takeSign_eq hsign]
    exact ⟨hlen, hinfi, hnity⟩
  · exact fun h => ⟨_, _, signedText_takeSign z, h⟩

theorem MisspeltInfinity.not_isDouble {z : Bytes} (h : MisspeltInfinity z) : ¬IsDouble z := by
  rw [isDouble_iff, spells_infinity_iff]
  obtain ⟨hlen, hinfi, hnity⟩ := misspeltInfinity_iff.mp h
  generalize (takeSign z).2 = body at *
  rintro (hlit | hnan | hinf | hlong)
  · obtain ⟨c, rest, rfl, hc⟩ := hlit.head
    obtain ⟨c', rest', heq, hl⟩ := hinfi.head_letter rfl
    cases heq
    obtain ⟨-, hdecimal, hpoint⟩ := plain_of_letter (.inr hl)
    rcases hc with hc | hc
    · rw [hdecimal] at hc
      cases hc
    · exact hpoint hc
  · rw [hnan.length_eq] at hlen
    cases hlen
  · rw [hinf.length_eq] at hlen
    cases hlen
  · exact hnity hlong.2.2

/-- Whatever was converted before, `Th8_ToDouble` reads exactly the numbers, unless eight
bytes begin as the word `Infinity` does and are not that word. -/
theorem toDouble_reads_iff (cache : DoubleCache)
    (hcache : Reachable DoubleCache.step (fun _ => none) cache) (bigint : Bool) (z : Bytes) :
    ((∃ u, cache.toDouble bigint z = .ok u) ↔ IsDouble z) ↔ ¬MisspeltInfinity z := by
  rw [(DoubleCache.readable_of_reachable hcache).toDouble_isOk_iff, parseDouble_isOk_iff,
    isNanWord_iff, isInfWord_iff]
  constructor
  · intro h hmisspelt
    obtain ⟨hlen, hinfi, -⟩ := misspeltInfinity_iff.mp hmisspelt
    exact hmisspelt.not_isDouble (h.mp (.inr (.inr (.inr ⟨hlen, hinfi⟩))))
  · rw [isDouble_iff, misspeltInfinity_iff, spells_infinity_iff]
    tauto

theorem toDouble_reads_cached :
    ((∃ u, (DoubleCache.step (fun _ => none) (.toDouble true (ascii "1e3"))).toDouble true
        (ascii "1e3") = .ok u) ↔ IsDouble (ascii "1e3")) ↔ ¬MisspeltInfinity (ascii "1e3") :=
  toDouble_reads_iff _ (.step _ .init trivial) true _

/-- The last four letters of the word are not looked at. -/
theorem not_toDouble_reads_infixxxx :
    ¬∀ cache, Reachable DoubleCache.step (fun _ => none) cache → ∀ bigint z,
      (∃ u, DoubleCache.toDouble cache bigint z = .ok u) ↔ IsDouble z := by
  intro h
  have hread : ∃ u, DoubleCache.toDouble (fun _ => none) true (ascii "infixxxx") = .ok u :=
    ⟨infBits, by decide⟩
  have hmisspelt : MisspeltInfinity (ascii "infixxxx") :=
    ⟨false, _, .bare _, by decide, by decide, by decide⟩
  exact hmisspelt.not_isDouble ((h _ .init true _).mp hread)

end Th8
